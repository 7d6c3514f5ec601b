import ZcashSdk.Lib.Bytes
import ZcashSdk.Lib.Loops
import ZcashSdk.Shielded.Types

set_option autoImplicit false

/-!
# The log of a vault

A vault is a string of entries that are only ever appended. The scanner finds the size of
the next entry from its tag, and for an account from a length field, cuts it out and lets
the entry's own reader have it.
-/
namespace ZcashSdk.Vault
open ZcashSdk.Bytes Loops
open Shielded (Bytes Fault)

inductive LogEntry where
  | init (pk : FixedBytes 32) (masterKeyProtectedSk : FixedBytes 60) (argon2Salt : FixedBytes 16)
  | addDevice (deviceId : FixedBytes 20) (prfKeyProtectedSk : FixedBytes 60)
  | account (ephemeralPk : FixedBytes 32) (nonce : FixedBytes 12) (ciphertext : Bytes)
  deriving DecidableEq

namespace LogEntry

def writeTo : LogEntry → Bytes
  | init pk sk salt => 0 :: (pk.bytes ++ (sk.bytes ++ salt.bytes))
  | addDevice deviceId sk => 1 :: (deviceId.bytes ++ sk.bytes)
  | account pk nonce ciphertext =>
    2 :: (bigEndian 2 (32 + 12 + ciphertext.length) ++ (pk.bytes ++ (nonce.bytes ++ ciphertext)))

end LogEntry

/-- Reading past the end is an error. -/
def readArray (n : ℕ) (bs : Bytes) : Except Fault (FixedBytes n × Bytes) :=
  match readExact n bs with
  | some r => .ok r
  | none => .error (.error "failed to fill whole buffer")

def readVec (n : ℕ) (bs : Bytes) : Except Fault (Bytes × Bytes) := do
  let (v, bs) ← readArray n bs
  .ok (v.bytes, bs)

def readNat (n : ℕ) (bs : Bytes) : Except Fault (ℕ × Bytes) := do
  let (v, bs) ← readArray n bs
  .ok (ofBigEndian v.bytes, bs)

def LogEntry.readFrom : Bytes → Except Fault LogEntry
  | [] => .error (.error "failed to fill whole buffer")
  | tag :: bs =>
    if tag = 0 then do
      let (pk, bs) ← readArray 32 bs
      let (sk, bs) ← readArray 60 bs
      let (salt, _) ← readArray 16 bs
      .ok (.init pk sk salt)
    else if tag = 1 then do
      let (deviceId, bs) ← readArray 20 bs
      let (sk, _) ← readArray 60 bs
      .ok (.addDevice deviceId sk)
    else if tag = 2 then do
      let (payloadLen, bs) ← readNat 2 bs
      let (pk, bs) ← readArray 32 bs
      let (nonce, bs) ← readArray 12 bs
      if payloadLen < 32 + 12 then .error (.panic "attempt to subtract with overflow")
      else
        let (ciphertext, _) ← readVec (payloadLen - 32 - 12) bs
        .ok (.account pk nonce ciphertext)
    else .error (.error s!"Invalid LogEntry tag: {tag}")

/-! ### The scanner -/

inductive Frame where
  /-- An account whose length field is cut off: the scanner stops. -/
  | cut
  /-- Not a tag: the byte is skipped. -/
  | invalid
  | frame (size : ℕ)
  deriving DecidableEq

def frameOf (tag : UInt8) (rest : Bytes) : Frame :=
  if tag = 0 then .frame 109
  else if tag = 1 then .frame 81
  else if tag = 2 then
    if rest.length < 2 then .cut else .frame (3 + ofBigEndian (rest.take 2))
  else .invalid

theorem frameOf_pos {tag : UInt8} {rest : Bytes} {size : ℕ} (h : frameOf tag rest = .frame size) :
    0 < size := by
  unfold frameOf at h
  split_ifs at h <;> simp only [Frame.frame.injEq] at h <;> omega

/-- A frame that is truncated, or that its reader rejects, is skipped. -/
def parseEntries : Bytes → Except Fault (List LogEntry)
  | [] => .ok []
  | tag :: rest =>
    match _h : frameOf tag rest with
    | .cut => .ok []
    | .invalid => parseEntries rest
    | .frame size =>
      let chunk := (tag :: rest).take size
      if chunk.length < size then parseEntries ((tag :: rest).drop size)
      else match LogEntry.readFrom chunk with
        | .ok entry => do
          let entries ← parseEntries ((tag :: rest).drop size)
          .ok (entry :: entries)
        | .error (.error _) => parseEntries ((tag :: rest).drop size)
        | .error (.panic m) => .error (.panic m)
termination_by bs => bs.length
decreasing_by
  all_goals
    first
    | (have hpos := frameOf_pos _h
       simp only [List.length_drop, List.length_cons]
       omega)
    | simp

theorem parseEntries_cut {tag : UInt8} {rest : Bytes} (h : frameOf tag rest = .cut) :
    parseEntries (tag :: rest) = .ok [] := by
  rw [parseEntries]
  split <;> simp_all

theorem parseEntries_invalid {tag : UInt8} {rest : Bytes} (h : frameOf tag rest = .invalid) :
    parseEntries (tag :: rest) = parseEntries rest := by
  rw [parseEntries]
  split <;> simp_all

theorem parseEntries_frame {tag : UInt8} {rest : Bytes} {size : ℕ}
    (h : frameOf tag rest = .frame size) :
    parseEntries (tag :: rest) =
      if ((tag :: rest).take size).length < size then parseEntries ((tag :: rest).drop size)
      else match LogEntry.readFrom ((tag :: rest).take size) with
        | .ok entry => do
          let entries ← parseEntries ((tag :: rest).drop size)
          .ok (entry :: entries)
        | .error (.error _) => parseEntries ((tag :: rest).drop size)
        | .error (.panic m) => .error (.panic m) := by
  rw [parseEntries]
  split
  · simp_all
  · simp_all
  · rename_i n hn
    rw [h, Frame.frame.injEq] at hn
    subst hn
    rfl

/-! ### One entry -/

/-- The length field of an account can hold its length. -/
def LogEntry.Fits : LogEntry → Prop
  | account _ _ ciphertext => ciphertext.length ≤ 65491
  | _ => True

theorem readArray_append {n : ℕ} (v : FixedBytes n) (rest : Bytes) :
    readArray n (v.bytes ++ rest) = .ok (v, rest) := by
  rw [readArray, readExact_append]

theorem readArray_bytes {n : ℕ} (v : FixedBytes n) : readArray n v.bytes = .ok (v, []) := by
  have := readArray_append v []
  rwa [List.append_nil] at this

theorem readNat_bigEndian {w n : ℕ} (h : n < 256 ^ w) (rest : Bytes) :
    readNat w (bigEndian w n ++ rest) = .ok (n, rest) := by
  have := readArray_append ⟨bigEndian w n, bigEndian_length w n⟩ rest
  rw [readNat, this]
  change Except.ok (ofBigEndian (bigEndian w n), rest) = _
  rw [ofBigEndian_bigEndian_of_lt h]

theorem readVec_append {n : ℕ} {v : Bytes} (h : v.length = n) (rest : Bytes) :
    readVec n (v ++ rest) = .ok (v, rest) := by
  have := readArray_append ⟨v, h⟩ rest
  rw [readVec, this]
  rfl

theorem LogEntry.readFrom_writeTo {e : LogEntry} (h : e.Fits) : readFrom e.writeTo = .ok e := by
  cases e with
  | init pk sk salt =>
    rw [writeTo, readFrom, if_pos rfl]
    simp only [readArray_append, readArray_bytes, ok_bind]
  | addDevice deviceId sk =>
    rw [writeTo, readFrom, if_neg (by decide), if_pos rfl]
    simp only [readArray_append, readArray_bytes, ok_bind]
  | account pk nonce ciphertext =>
    simp only [Fits] at h
    have hlen : 32 + 12 + ciphertext.length < 256 ^ 2 := by omega
    have hct : ciphertext.length = 32 + 12 + ciphertext.length - 32 - 12 := by omega
    rw [writeTo, readFrom, if_neg (by decide), if_neg (by decide), if_pos rfl,
      readNat_bigEndian hlen]
    simp only [readArray_append, ok_bind]
    have hread := readVec_append hct []
    rw [List.append_nil] at hread
    rw [if_neg (by omega), hread]
    rfl

/-! ### The scanner keeps step with the writer -/

def LogEntry.tag : LogEntry → UInt8
  | init .. => 0
  | addDevice .. => 1
  | account .. => 2

theorem LogEntry.writeTo_ne_nil (e : LogEntry) : e.writeTo ≠ [] := by
  cases e <;> simp [writeTo]

theorem frameOf_writeTo {e : LogEntry} (h : e.Fits) {tag : UInt8} {body more : Bytes}
    (hw : e.writeTo = tag :: body) : frameOf tag (body ++ more) = .frame e.writeTo.length := by
  cases e with
  | init pk sk salt =>
    obtain ⟨rfl, rfl⟩ := List.cons.inj hw
    simp [frameOf, LogEntry.writeTo, pk.length_eq, sk.length_eq, salt.length_eq]
  | addDevice deviceId sk =>
    obtain ⟨rfl, rfl⟩ := List.cons.inj hw
    simp [frameOf, LogEntry.writeTo, deviceId.length_eq, sk.length_eq]
  | account pk nonce ciphertext =>
    simp only [LogEntry.Fits] at h
    have hlen : 32 + 12 + ciphertext.length < 256 ^ 2 := by omega
    obtain ⟨rfl, rfl⟩ := List.cons.inj hw
    have htake : ((bigEndian 2 (32 + 12 + ciphertext.length) ++
        (pk.bytes ++ (nonce.bytes ++ ciphertext))) ++ more).take 2 =
        bigEndian 2 (32 + 12 + ciphertext.length) := by
      rw [List.append_assoc]
      exact List.take_left' (bigEndian_length 2 _)
    rw [frameOf, if_neg (by decide), if_neg (by decide), if_pos rfl, if_neg, htake,
      ofBigEndian_bigEndian_of_lt hlen, Frame.frame.injEq]
    · simp [LogEntry.writeTo, pk.length_eq, nonce.length_eq]
      omega
    · simp only [List.length_append, bigEndian_length]
      omega

/-- What follows an entry is read as if the entry were not there. -/
theorem parseEntries_writeTo {e : LogEntry} (h : e.Fits) (more : Bytes) :
    parseEntries (e.writeTo ++ more) = (parseEntries more).map (e :: ·) := by
  obtain ⟨tag, body, hw⟩ := List.exists_cons_of_ne_nil e.writeTo_ne_nil
  have htake : (tag :: (body ++ more)).take e.writeTo.length = e.writeTo := by
    rw [← List.cons_append, ← hw, List.take_left]
  have hdrop : (tag :: (body ++ more)).drop e.writeTo.length = more := by
    rw [← List.cons_append, ← hw, List.drop_left]
  rw [hw, List.cons_append, parseEntries_frame (frameOf_writeTo h hw), htake, hdrop,
    if_neg (lt_irrefl _), LogEntry.readFrom_writeTo h]
  cases parseEntries more <;> rfl

/-- A size that is found does not depend on what follows. -/
theorem frameOf_append {tag : UInt8} {rest : Bytes} (h : frameOf tag rest ≠ .cut) (more : Bytes) :
    frameOf tag (rest ++ more) = frameOf tag rest := by
  by_cases h2 : tag = 2
  · subst h2
    have hlen : ¬ rest.length < 2 := fun hlt => h (by simp [frameOf, hlt])
    have happ : ¬ (rest ++ more).length < 2 := by
      rw [List.length_append]
      omega
    simp only [frameOf, if_neg hlen, if_neg happ]
    rw [List.take_append_of_le_length (by omega)]
  · simp only [frameOf, if_neg h2]

theorem parseEntries_take_writeTo {e : LogEntry} (h : e.Fits) {k : ℕ}
    (hk : k < e.writeTo.length) : parseEntries (e.writeTo.take k) = .ok [] := by
  obtain ⟨tag, body, hw⟩ := List.exists_cons_of_ne_nil e.writeTo_ne_nil
  cases k with
  | zero => rw [List.take_zero, parseEntries]
  | succ j =>
    have htake : e.writeTo.take (j + 1) = tag :: body.take j := by rw [hw, List.take_succ_cons]
    rw [htake]
    by_cases hcut : frameOf tag (body.take j) = .cut
    · exact parseEntries_cut hcut
    · -- The whole entry has the size that its beginning announces.
      have hframe : frameOf tag (body.take j) = .frame e.writeTo.length := by
        rw [← frameOf_append hcut (body.drop j), List.take_append_drop]
        have hwhole : frameOf tag (body ++ []) = .frame e.writeTo.length := frameOf_writeTo h hw
        rwa [List.append_nil] at hwhole
      have hlen : (tag :: body.take j).length < e.writeTo.length := by
        rw [← htake, List.length_take]
        omega
      rw [parseEntries_frame hframe, if_pos ((List.length_take_le' ..).trans_lt hlen),
        List.drop_of_length_le hlen.le, parseEntries]

/-! ### A log that is cut off -/

def encode (entries : List LogEntry) : Bytes := entries.flatMap LogEntry.writeTo

/-- The entries whose last byte is among the first `k`. -/
def wholeBefore : List LogEntry → ℕ → List LogEntry
  | [], _ => []
  | e :: entries, k =>
    if e.writeTo.length ≤ k then e :: wholeBefore entries (k - e.writeTo.length) else []

theorem parseEntries_take_encode (entries : List LogEntry) (h : ∀ e ∈ entries, e.Fits) (k : ℕ) :
    parseEntries ((encode entries).take k) = .ok (wholeBefore entries k) := by
  induction entries generalizing k with
  | nil => rw [encode, List.flatMap_nil, List.take_nil, parseEntries, wholeBefore]
  | cons e entries ih =>
    obtain ⟨he, hes⟩ := List.forall_mem_cons.1 h
    have hcons : encode (e :: entries) = e.writeTo ++ encode entries := List.flatMap_cons ..
    rw [hcons, List.take_append, wholeBefore]
    split
    next hle =>
      rw [List.take_of_length_le hle, parseEntries_writeTo he, ih hes]
      rfl
    next hlt =>
      have hk : k - e.writeTo.length = 0 := by omega
      rw [hk, List.take_zero, List.append_nil]
      exact parseEntries_take_writeTo he (by omega)

theorem wholeBefore_length (entries : List LogEntry) {k : ℕ} (hk : (encode entries).length ≤ k) :
    wholeBefore entries k = entries := by
  induction entries generalizing k with
  | nil => rfl
  | cons e entries ih =>
    rw [encode, List.flatMap_cons, List.length_append] at hk
    have htail : (encode entries).length ≤ k - e.writeTo.length := by
      rw [encode]
      omega
    rw [wholeBefore, if_pos (by omega), ih htail]

theorem parseEntries_encode (entries : List LogEntry) (h : ∀ e ∈ entries, e.Fits) :
    parseEntries (encode entries) = .ok entries := by
  have := parseEntries_take_encode entries h (encode entries).length
  rwa [List.take_length, wholeBefore_length entries le_rfl] at this

/-! ### Any string of bytes -/

def NoPanic {α : Type} (x : Except Fault α) : Prop := ∀ m, x ≠ .error (.panic m)

theorem noPanic_ok {α : Type} (a : α) : NoPanic (.ok a) := fun _ h => by cases h

theorem noPanic_error {α : Type} (m : String) : NoPanic (.error (.error m) : Except Fault α) :=
  fun _ h => by cases h

theorem NoPanic.bind {α β : Type} {x : Except Fault α} {f : α → Except Fault β} (hx : NoPanic x)
    (hf : ∀ a, x = .ok a → NoPanic (f a)) : NoPanic (x >>= f) := by
  cases x with
  | error e =>
    intro m h
    rw [error_bind, Except.error.injEq] at h
    exact hx m (by rw [h])
  | ok a => exact hf a rfl

theorem readArray_noPanic (n : ℕ) (bs : Bytes) : NoPanic (readArray n bs) := by
  rw [readArray]
  split
  · exact noPanic_ok _
  · exact noPanic_error _

theorem readArray_eq_ok {n : ℕ} {bs rest : Bytes} {v : FixedBytes n} :
    readArray n bs = .ok (v, rest) ↔ bs = v.bytes ++ rest := by
  rw [← readExact_eq_some, readArray]
  cases readExact n bs <;> simp

theorem readArray_length {n : ℕ} {bs rest : Bytes} {v : FixedBytes n}
    (h : readArray n bs = .ok (v, rest)) : bs.length = n + rest.length := by
  rw [readArray_eq_ok.1 h, List.length_append, v.length_eq]

theorem readNat_noPanic (n : ℕ) (bs : Bytes) : NoPanic (readNat n bs) :=
  NoPanic.bind (readArray_noPanic n bs) fun _ _ => noPanic_ok _

theorem readNat_eq {n k : ℕ} {bs rest : Bytes} (h : readNat n bs = .ok (k, rest)) :
    k = ofBigEndian (bs.take n) ∧ bs.length = n + rest.length := by
  obtain ⟨⟨v, r⟩, hv, hk⟩ := bind_eq_ok.1 h
  rw [Except.ok.injEq, Prod.mk.injEq] at hk
  obtain ⟨rfl, rfl⟩ := hk
  refine ⟨?_, readArray_length hv⟩
  rw [readArray_eq_ok.1 hv, List.take_left' v.length_eq]

/-- The reader cannot overflow on an account that is no longer than its length field announces. -/
theorem readFrom_noPanic {tag : UInt8} {body : Bytes}
    (h : tag = 2 → body.length ≤ 2 + ofBigEndian (body.take 2)) :
    NoPanic (LogEntry.readFrom (tag :: body)) := by
  rw [LogEntry.readFrom]
  split_ifs with h0 h1 h2
  · refine NoPanic.bind (readArray_noPanic _ _) fun _ _ => ?_
    refine NoPanic.bind (readArray_noPanic _ _) fun _ _ => ?_
    exact NoPanic.bind (readArray_noPanic _ _) fun _ _ => noPanic_ok _
  · refine NoPanic.bind (readArray_noPanic _ _) fun _ _ => ?_
    exact NoPanic.bind (readArray_noPanic _ _) fun _ _ => noPanic_ok _
  · refine NoPanic.bind (readNat_noPanic _ _) fun ⟨payloadLen, bs1⟩ hlen => ?_
    refine NoPanic.bind (readArray_noPanic _ _) fun ⟨pk, bs2⟩ hpk => ?_
    refine NoPanic.bind (readArray_noPanic _ _) fun ⟨nonce, bs3⟩ hnonce => ?_
    obtain ⟨hpayload, hbody⟩ := readNat_eq hlen
    have hpk := readArray_length hpk
    have hnonce := readArray_length hnonce
    have := h h2
    have hge : ¬ payloadLen < 32 + 12 := by omega
    simp only [if_neg hge]
    refine NoPanic.bind (NoPanic.bind (readArray_noPanic _ _) fun _ _ => noPanic_ok _) ?_
    exact fun _ _ => noPanic_ok _
  · exact noPanic_error _

theorem readFrom_take_noPanic {tag : UInt8} {rest : Bytes} {size : ℕ}
    (h : frameOf tag rest = .frame size) :
    NoPanic (LogEntry.readFrom ((tag :: rest).take size)) := by
  obtain ⟨n, rfl⟩ := Nat.exists_eq_succ_of_ne_zero (frameOf_pos h).ne'
  refine readFrom_noPanic fun h2 => ?_
  subst h2
  by_cases hlen : rest.length < 2
  · rw [frameOf, if_neg (by decide), if_neg (by decide), if_pos rfl, if_pos hlen] at h
    cases h
  · rw [frameOf, if_neg (by decide), if_neg (by decide), if_pos rfl, if_neg hlen,
      Frame.frame.injEq] at h
    have htake : (rest.take n).take 2 = rest.take 2 := by
      rw [List.take_take, min_eq_left (by omega)]
    rw [htake, List.length_take]
    omega

theorem parseEntries_total (bs : Bytes) : ∃ entries, parseEntries bs = .ok entries := by
  induction hn : bs.length using Nat.strong_induction_on generalizing bs with
  | _ n ih =>
  cases bs with
  | nil => exact ⟨[], by rw [parseEntries]⟩
  | cons tag rest =>
    subst hn
    cases hframe : frameOf tag rest with
    | cut => exact ⟨[], parseEntries_cut hframe⟩
    | invalid =>
      rw [parseEntries_invalid hframe]
      exact ih _ (Nat.lt_succ_self _) rest rfl
    | frame size =>
      have hpos := frameOf_pos hframe
      have hlt : ((tag :: rest).drop size).length < (tag :: rest).length := by
        simp only [List.length_drop, List.length_cons]
        omega
      obtain ⟨entries, hrest⟩ := ih _ hlt _ rfl
      rw [parseEntries_frame hframe, hrest]
      split_ifs
      · exact ⟨entries, rfl⟩
      · cases hread : LogEntry.readFrom ((tag :: rest).take size) with
        | ok entry => exact ⟨entry :: entries, rfl⟩
        | error f =>
          cases f with
          | error _ => exact ⟨entries, rfl⟩
          | panic m => exact absurd hread (readFrom_take_noPanic hframe m)

end ZcashSdk.Vault
