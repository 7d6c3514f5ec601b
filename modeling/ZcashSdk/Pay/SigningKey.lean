import ZcashSdk.Lib.Iterate
import ZcashSdk.Lib.Loops
import ZcashSdk.Shielded.Types

set_option autoImplicit false

/-!
# Signing keys

A signing key comes in an envelope: the era, and then records of a type, a length and as many
bytes, where type and length are compact sizes. The loop takes one record at a turn, and what
it holds is what the records taken so far say. How numbers are written and which bytes are a
key is left to the libraries.
-/
namespace ZcashSdk.SigningKeys
open Shielded Iterate Loops

/-! ### Little-endian numbers -/

def fromLe : Bytes → ℕ
  | [] => 0
  | b :: bs => b.toNat + 256 * fromLe bs

def toLe : ℕ → ℕ → Bytes
  | 0, _ => []
  | k + 1, n => UInt8.ofNat n :: toLe k (n / 256)

@[simp] theorem toLe_length (k n : ℕ) : (toLe k n).length = k := by
  induction k generalizing n with
  | zero => rfl
  | succ k ih => rw [toLe, List.length_cons, ih]

theorem fromLe_toLe {k n : ℕ} (h : n < 256 ^ k) : fromLe (toLe k n) = n := by
  induction k generalizing n with
  | zero =>
    rw [pow_zero] at h
    simp only [toLe, fromLe]
    omega
  | succ k ih =>
    rw [pow_succ] at h
    rw [toLe, fromLe, ih (by omega), UInt8.toNat_ofNat']
    omega

theorem toLe_fromLe (bs : Bytes) : toLe bs.length (fromLe bs) = bs := by
  induction bs with
  | nil => rfl
  | cons b bs ih =>
    have hb : b.toNat < 256 := b.toNat_lt
    have hdiv : (b.toNat + 256 * fromLe bs) / 256 = fromLe bs := by omega
    rw [List.length_cons, fromLe, toLe, hdiv, ih]
    congr 1
    apply UInt8.toNat_inj.mp
    rw [UInt8.toNat_ofNat']
    omega

/-! ### The libraries -/

/-- What is called: `CompactSize`, the keys of the pools and the parsers of their text forms. -/
structure Libraries (P S U X : Type) where
  nu5 : ℕ
  readCompact : Bytes → Option (ℕ × Bytes)
  writeCompact : ℕ → Bytes
  accountPrivKey : Bytes → Option P
  accountPrivKeyBytes : P → Bytes
  extendedSpendingKey : Bytes → Option S
  extendedSpendingKeyBytes : S → Bytes
  orchardSpendingKey : Bytes → Bool
  unifiedSpendingKey : Bytes → Option U
  xprvFromStr : String → Option X
  fromExtendedPrivkey : X → P
  decodeExtendedSpendingKey : (hrp : String) → String → Option S

/-- What the code relies on: a compact size has one form, which a number below 253 has, and the
    bytes of a key have its length and are that key. -/
structure Libraries.Lawful {P S U X : Type} (lib : Libraries P S U X) : Prop where
  nu5 : lib.nu5 < 2 ^ 32
  read_write : ∀ n < 253, ∀ rest, lib.readCompact (lib.writeCompact n ++ rest) = some (n, rest)
  canonical : ∀ bs n rest, lib.readCompact bs = some (n, rest) → bs = lib.writeCompact n ++ rest
  transparent : ∀ k, (lib.accountPrivKeyBytes k).length = 74 ∧
    lib.accountPrivKey (lib.accountPrivKeyBytes k) = some k
  sapling : ∀ k, (lib.extendedSpendingKeyBytes k).length = 169 ∧
    lib.extendedSpendingKey (lib.extendedSpendingKeyBytes k) = some k

inductive SigningKey (P S U : Type) where
  | unified (usk : U)
  | transparent (key : P)
  | sapling (key : S)

inductive InvalidSpendingKey where
  | truncated (what : String)
  | unknownEra (era : ℕ)
  | unknownTypecode (typecode : ℕ)
  | badLength (typecode length expected : ℕ)
  | trailingBytes (n : ℕ)
  | duplicateComponent (typecode : ℕ)
  | malformedComponent (typecode : ℕ)
  | unsupportedCombination (what : String)
  | noComponents
  deriving DecidableEq

/-- An error that is returned, or a panic: an index, a slice or `unreachable!`. -/
inductive Halt where
  | error (e : InvalidSpendingKey)
  | panic
  deriving DecidableEq

def typecodeP2pkh : ℕ := 0
def typecodeSapling : ℕ := 2
def typecodeOrchard : ℕ := 3

def expectedLength (typecode : ℕ) : Option ℕ :=
  if typecode = typecodeP2pkh then some 74
  else if typecode = typecodeSapling then some 169
  else if typecode = typecodeOrchard then some 32
  else none

section Decode
variable {P S U X : Type} (lib : Libraries P S U X)

def orElse {α : Type} (e : InvalidSpendingKey) : Option α → Except Halt α
  | some a => .ok a
  | none => .error (.error e)

def splitAt (bs : Bytes) (n : ℕ) : Except Halt (Bytes × Bytes) :=
  if n ≤ bs.length then .ok (bs.take n, bs.drop n) else .error .panic

/-- The type and value of the first record, and what comes after it. -/
def readRecord (remaining : Bytes) : Except Halt (ℕ × Bytes × Bytes) := do
  let (typecode, afterType) ← orElse (.truncated "incomplete typecode") (lib.readCompact remaining)
  let (length, afterLength) ←
    orElse (.truncated s!"incomplete length for typecode {typecode}") (lib.readCompact afterType)
  let expected ← orElse (.unknownTypecode typecode) (expectedLength typecode)
  if length ≠ expected then .error (.error (.badLength typecode length expected))
  else if afterLength.length < length then
    .error (.error (.truncated
      s!"typecode {typecode} declares {length} bytes but only {afterLength.length} remain"))
  else do
    let (value, rest) ← splitAt afterLength length
    .ok (typecode, value, rest)

structure Envelope (P S : Type) where
  remaining : Bytes
  p2pkh : Option P
  sapling : Option S
  orchardPresent : Bool

def addComponent (s : Envelope P S) (typecode : ℕ) (value : Bytes) : Except Halt (Envelope P S) :=
  if typecode = typecodeP2pkh then
    if s.p2pkh.isSome then .error (.error (.duplicateComponent typecode))
    else (orElse (.malformedComponent typecode) (lib.accountPrivKey value)).map
      fun k => { s with p2pkh := some k }
  else if typecode = typecodeSapling then
    if s.sapling.isSome then .error (.error (.duplicateComponent typecode))
    else (orElse (.malformedComponent typecode) (lib.extendedSpendingKey value)).map
      fun k => { s with sapling := some k }
  else if typecode = typecodeOrchard then
    if s.orchardPresent then .error (.error (.duplicateComponent typecode))
    -- `try_into` a key of 32 bytes
    else if value.length ≠ 32 then .error (.error (.malformedComponent typecode))
    else if lib.orchardSpendingKey value then .ok { s with orchardPresent := true }
    else .error (.error (.malformedComponent typecode))
  else .error .panic

def Envelope.full (s : Envelope P S) : Bool := s.p2pkh.isSome && s.sapling.isSome && s.orchardPresent

/-- All three components: nothing may follow, and the whole is decoded again. -/
def unify (bytes : Bytes) (s : Envelope P S) : Except Halt (SigningKey P S U) :=
  if s.remaining ≠ [] then .error (.error (.trailingBytes s.remaining.length))
  else (orElse (.malformedComponent typecodeP2pkh) (lib.unifiedSpendingKey bytes)).map .unified

/-- The `match` after the loop. -/
def finish (s : Envelope P S) : Except Halt (SigningKey P S U) :=
  match s.p2pkh, s.sapling, s.orchardPresent with
  | some key, none, false => .ok (.transparent key)
  | none, some key, false => .ok (.sapling key)
  | none, none, false => .error (.error .noComponents)
  | none, none, true => .error (.error (.unsupportedCombination "orchard alone"))
  | some _, some _, false => .error (.error (.unsupportedCombination "transparent+sapling"))
  | some _, none, true => .error (.error (.unsupportedCombination "transparent+orchard"))
  | none, some _, true => .error (.error (.unsupportedCombination "sapling+orchard"))
  | some _, some _, true => .error .panic

def recordTurn (s : Envelope P S) : Except Halt (Envelope P S) := do
  let (typecode, value, rest) ← readRecord lib s.remaining
  addComponent lib { s with remaining := rest } typecode value

/-- `while !remaining.is_empty()`. -/
def decodeTurn (bytes : Bytes) (s : Envelope P S) : Envelope P S ⊕ Except Halt (SigningKey P S U) :=
  if s.remaining = [] then .inr (finish s)
  else
    match recordTurn lib s with
    | .error e => .inr (.error e)
    | .ok s' => if s'.full then .inr (unify lib bytes s') else .inl s'

/-- `SigningKey::decode`, its loop cut off after so many turns. -/
def decode (bytes : Bytes) (fuel : ℕ) : Option (Except Halt (SigningKey P S U)) :=
  if bytes.length < 4 then some (.error (.error (.truncated "missing 4-byte era header")))
  else
    match bytes with
    | b0 :: b1 :: b2 :: b3 :: rest =>
      let era := fromLe [b0, b1, b2, b3]
      if era ≠ lib.nu5 then some (.error (.error (.unknownEra era)))
      else iterate (decodeTurn lib bytes) fuel ⟨rest, none, none, false⟩
    | _ => some (.error .panic)

/-! ### Encoding -/

def encodeRecord (r : ℕ × Bytes) : Bytes :=
  lib.writeCompact r.1 ++ lib.writeCompact r.2.length ++ r.2

def singleComponentEnvelope (typecode : ℕ) (value : Bytes) : Bytes :=
  toLe 4 lib.nu5 ++ encodeRecord lib (typecode, value)

def encodeTransparent (xprv : String) : Except InvalidSpendingKey Bytes :=
  match lib.xprvFromStr xprv with
  | none => .error (.malformedComponent typecodeP2pkh)
  | some x => .ok (singleComponentEnvelope lib typecodeP2pkh
      (lib.accountPrivKeyBytes (lib.fromExtendedPrivkey x)))

def encodeSapling (esk hrp : String) : Except InvalidSpendingKey Bytes :=
  match lib.decodeExtendedSpendingKey hrp esk with
  | none => .error (.malformedComponent typecodeSapling)
  | some k => .ok (singleComponentEnvelope lib typecodeSapling (lib.extendedSpendingKeyBytes k))

/-! ### The grammar -/

def Admitted (types : List ℕ) : Prop :=
  types = [typecodeP2pkh] ∨ types = [typecodeSapling] ∨
    types.Perm [typecodeP2pkh, typecodeSapling, typecodeOrchard]

/-- The era and then records of known types and their lengths, an admitted set of them. -/
def Written (bytes : Bytes) (records : List (ℕ × Bytes)) : Prop :=
  bytes = toLe 4 lib.nu5 ++ records.flatMap (encodeRecord lib) ∧
    (∀ r ∈ records, expectedLength r.1 = some r.2.length) ∧ Admitted (records.map Prod.fst)

def IsKey (r : ℕ × Bytes) : Prop :=
  (r.1 = typecodeP2pkh ∧ (lib.accountPrivKey r.2).isSome = true) ∨
    (r.1 = typecodeSapling ∧ (lib.extendedSpendingKey r.2).isSome = true) ∨
    (r.1 = typecodeOrchard ∧ lib.orchardSpendingKey r.2 = true)

inductive Denotes (bytes : Bytes) : List (ℕ × Bytes) → SigningKey P S U → Prop
  | transparent {value : Bytes} {key : P} (h : lib.accountPrivKey value = some key) :
      Denotes bytes [(typecodeP2pkh, value)] (.transparent key)
  | sapling {value : Bytes} {key : S} (h : lib.extendedSpendingKey value = some key) :
      Denotes bytes [(typecodeSapling, value)] (.sapling key)
  | unified {records : List (ℕ × Bytes)} {usk : U}
      (htypes : (records.map Prod.fst).Perm [typecodeP2pkh, typecodeSapling, typecodeOrchard])
      (hkeys : ∀ r ∈ records, IsKey lib r) (h : lib.unifiedSpendingKey bytes = some usk) :
      Denotes bytes records (.unified usk)

end Decode

/-! ### Records -/

section Records
variable {P S U X : Type} {lib : Libraries P S U X}

theorem orElse_ok {α : Type} {e : InvalidSpendingKey} {o : Option α} {a : α} :
    orElse e o = .ok a ↔ o = some a := by
  cases o <;> simp [orElse]

theorem expectedLength_bounds {t n : ℕ} (h : expectedLength t = some n) :
    t < 253 ∧ 0 < n ∧ n < 253 := by
  unfold expectedLength typecodeP2pkh typecodeSapling typecodeOrchard at h
  split_ifs at h <;> cases h <;> omega

theorem expectedLength_types {t n : ℕ} (h : expectedLength t = some n) :
    t ∈ [typecodeP2pkh, typecodeSapling, typecodeOrchard] := by
  unfold expectedLength at h
  split_ifs at h <;> simp [*]

theorem splitAt_ok {bs : Bytes} {n : ℕ} (h : n ≤ bs.length) :
    splitAt bs n = .ok (bs.take n, bs.drop n) := if_pos h

theorem readRecord_ok_iff (hlib : lib.Lawful) {bs v rest : Bytes} {t : ℕ} :
    readRecord lib bs = .ok (t, v, rest) ↔
      expectedLength t = some v.length ∧ bs = encodeRecord lib (t, v) ++ rest := by
  unfold readRecord encodeRecord
  constructor
  · intro h
    obtain ⟨⟨t', afterType⟩, ht, h⟩ := bind_eq_ok.1 h
    obtain ⟨⟨n, afterLength⟩, hn, h⟩ := bind_eq_ok.1 h
    obtain ⟨expected, hexp, h⟩ := bind_eq_ok.1 h
    split_ifs at h with hne hshort
    rw [splitAt_ok (by omega), ok_bind] at h
    cases h
    have htype := hlib.canonical _ _ _ (orElse_ok.1 ht)
    have hlength := hlib.canonical _ _ _ (orElse_ok.1 hn)
    have htake : (afterLength.take n).length = n := List.length_take_of_le (by omega)
    rw [orElse_ok.1 hexp, htake, not_not.1 hne]
    refine ⟨rfl, ?_⟩
    rw [htype, hlength, ← not_not.1 hne, List.append_assoc, List.append_assoc, List.take_append_drop]
  · rintro ⟨hexp, rfl⟩
    obtain ⟨ht, -, hv⟩ := expectedLength_bounds hexp
    dsimp only
    rw [List.append_assoc, List.append_assoc, hlib.read_write _ ht]
    simp only [orElse, ok_bind]
    rw [hlib.read_write _ hv]
    simp only [ok_bind, hexp]
    rw [if_neg (not_not.2 rfl), if_neg (by rw [List.length_append]; omega),
      splitAt_ok (by rw [List.length_append]; omega), ok_bind, List.take_left, List.drop_left]

theorem readRecord_ne_panic (bs : Bytes) : readRecord lib bs ≠ .error .panic := by
  unfold readRecord
  intro h
  cases hread : lib.readCompact bs with
  | none =>
    rw [hread] at h
    cases h
  | some p =>
    rw [hread] at h
    simp only [orElse, ok_bind] at h
    cases hread' : lib.readCompact p.2 with
    | none =>
      rw [hread'] at h
      cases h
    | some q =>
      rw [hread'] at h
      simp only [ok_bind] at h
      cases hexp : expectedLength p.1 with
      | none =>
        rw [hexp] at h
        cases h
      | some expected =>
        rw [hexp] at h
        simp only [ok_bind] at h
        split_ifs at h with hne hshort
        · cases h
        · cases h
        · rw [splitAt_ok (by omega), ok_bind] at h
          cases h

def Parses (lib : Libraries P S U X) (bs : Bytes) (records : List (ℕ × Bytes)) : Prop :=
  bs = records.flatMap (encodeRecord lib) ∧ ∀ r ∈ records, expectedLength r.1 = some r.2.length

theorem encodeRecord_pos {r : ℕ × Bytes} (h : expectedLength r.1 = some r.2.length) :
    0 < (encodeRecord lib r).length := by
  have hpos := (expectedLength_bounds h).2.1
  unfold encodeRecord
  rw [List.length_append]
  omega

theorem parses_nil {records : List (ℕ × Bytes)} : Parses lib [] records ↔ records = [] := by
  constructor
  · rintro ⟨hnil, hvalid⟩
    cases records with
    | nil => rfl
    | cons r records =>
      have hpos := @encodeRecord_pos _ _ _ _ lib _ (hvalid r (List.mem_cons_self ..))
      have hlength := congrArg List.length hnil
      rw [List.flatMap_cons, List.length_append, List.length_nil] at hlength
      omega
  · rintro rfl
    exact ⟨rfl, by simp⟩

theorem parses_cons (hlib : lib.Lawful) {bs v rest : Bytes} {t : ℕ}
    (h : readRecord lib bs = .ok (t, v, rest)) {records : List (ℕ × Bytes)} :
    Parses lib bs records ↔ ∃ more, records = (t, v) :: more ∧ Parses lib rest more := by
  obtain ⟨hexp, hbs⟩ := (readRecord_ok_iff hlib).1 h
  constructor
  · rintro ⟨hrecords, hvalid⟩
    cases records with
    | nil =>
      have hpos := @encodeRecord_pos _ _ _ _ lib (t, v) hexp
      have hlength := congrArg List.length (hbs.symm.trans hrecords)
      rw [List.length_append, List.flatMap_nil, List.length_nil] at hlength
      omega
    | cons r more =>
      obtain ⟨hr, hmore⟩ := List.forall_mem_cons.1 hvalid
      rw [List.flatMap_cons] at hrecords
      have hread : readRecord lib bs = .ok (r.1, r.2, more.flatMap (encodeRecord lib)) :=
        (readRecord_ok_iff hlib).2 ⟨hr, hrecords⟩
      rw [h] at hread
      cases hread
      exact ⟨more, rfl, rfl, hmore⟩
  · rintro ⟨more, rfl, hrest, hmore⟩
    refine ⟨?_, List.forall_mem_cons.2 ⟨hexp, hmore⟩⟩
    rw [List.flatMap_cons, ← hrest]
    exact hbs

theorem not_parses (hlib : lib.Lawful) {bs : Bytes} {e : Halt} (h : readRecord lib bs = .error e)
    (hne : bs ≠ []) (records : List (ℕ × Bytes)) : ¬ Parses lib bs records := by
  rintro ⟨hrecords, hvalid⟩
  cases records with
  | nil => exact hne hrecords
  | cons r more =>
    rw [List.flatMap_cons] at hrecords
    have hread : readRecord lib bs = .ok (r.1, r.2, more.flatMap (encodeRecord lib)) :=
      (readRecord_ok_iff hlib).2 ⟨hvalid r (List.mem_cons_self ..), hrecords⟩
    rw [h] at hread
    cases hread

end Records

/-! ### What the loop holds -/

section Held
variable {P S U X : Type} {lib : Libraries P S U X} {bytes : Bytes} {done : List (ℕ × Bytes)}
  {remaining : Bytes}

def held (lib : Libraries P S U X) (done : List (ℕ × Bytes)) (remaining : Bytes) : Envelope P S where
  remaining := remaining
  p2pkh := (done.lookup typecodeP2pkh).bind lib.accountPrivKey
  sapling := (done.lookup typecodeSapling).bind lib.extendedSpendingKey
  orchardPresent := (done.lookup typecodeOrchard).isSome

/-- Records that were taken: of known types, no type twice, and keys. -/
structure Took (lib : Libraries P S U X) (done : List (ℕ × Bytes)) : Prop where
  lengths : ∀ r ∈ done, expectedLength r.1 = some r.2.length
  keys : ∀ r ∈ done, IsKey lib r
  once : (done.map Prod.fst).Nodup

theorem lookup_some_iff {t : ℕ} : (done.lookup t).isSome = true ↔ t ∈ done.map Prod.fst := by
  rw [List.lookup_isSome_iff, List.mem_map]
  refine exists_congr fun p => and_congr_right fun _ => ?_
  rw [beq_iff_eq, eq_comm]

theorem mem_of_lookup {t : ℕ} {v : Bytes} (h : done.lookup t = some v) : (t, v) ∈ done := by
  obtain ⟨l₁, l₂, rfl, -⟩ := List.lookup_eq_some_iff.1 h
  exact List.mem_append_right _ (List.mem_cons_self ..)

theorem bind_some_iff {α : Type} {t : ℕ} {f : Bytes → Option α}
    (hkeys : ∀ v, (t, v) ∈ done → (f v).isSome = true) :
    ((done.lookup t).bind f).isSome = true ↔ t ∈ done.map Prod.fst := by
  rw [← lookup_some_iff]
  cases hv : done.lookup t with
  | none => simp
  | some v => simp [hkeys v (mem_of_lookup hv)]

theorem Took.p2pkh_iff (h : Took lib done) :
    (held lib done remaining).p2pkh.isSome = true ↔ typecodeP2pkh ∈ done.map Prod.fst := by
  refine bind_some_iff fun v hv => ?_
  rcases h.keys _ hv with ⟨-, hkey⟩ | ⟨ht, -⟩ | ⟨ht, -⟩
  · exact hkey
  · cases ht
  · cases ht

theorem Took.sapling_iff (h : Took lib done) :
    (held lib done remaining).sapling.isSome = true ↔ typecodeSapling ∈ done.map Prod.fst := by
  refine bind_some_iff fun v hv => ?_
  rcases h.keys _ hv with ⟨ht, -⟩ | ⟨-, hkey⟩ | ⟨ht, -⟩
  · cases ht
  · exact hkey
  · cases ht

theorem orchard_iff :
    (held lib done remaining).orchardPresent = true ↔ typecodeOrchard ∈ done.map Prod.fst :=
  lookup_some_iff

theorem Took.types (h : Took lib done) {t : ℕ} (ht : t ∈ done.map Prod.fst) :
    t ∈ [typecodeP2pkh, typecodeSapling, typecodeOrchard] := by
  obtain ⟨r, hr, rfl⟩ := List.mem_map.1 ht
  exact expectedLength_types (h.lengths r hr)

theorem Took.full_iff (h : Took lib done) : (held lib done remaining).full = true ↔
    (done.map Prod.fst).Perm [typecodeP2pkh, typecodeSapling, typecodeOrchard] := by
  unfold Envelope.full
  rw [Bool.and_eq_true, Bool.and_eq_true, h.p2pkh_iff, h.sapling_iff, orchard_iff]
  constructor
  · rintro ⟨⟨hp, hs⟩, ho⟩
    refine (List.perm_ext_iff_of_nodup h.once (by decide)).2 fun t => ⟨h.types, fun ht => ?_⟩
    simp only [List.mem_cons, List.not_mem_nil, or_false] at ht
    rcases ht with rfl | rfl | rfl
    · exact hp
    · exact hs
    · exact ho
  · intro hperm
    exact ⟨⟨hperm.mem_iff.2 (by decide), hperm.mem_iff.2 (by decide)⟩, hperm.mem_iff.2 (by decide)⟩

theorem Took.nil : Took lib [] := ⟨by simp, by simp, List.nodup_nil⟩

theorem Took.snoc (h : Took lib done) {t : ℕ} {v : Bytes} (hexp : expectedLength t = some v.length)
    (hnew : t ∉ done.map Prod.fst) (hkey : IsKey lib (t, v)) : Took lib (done ++ [(t, v)]) := by
  refine ⟨?_, ?_, ?_⟩
  · simpa [or_imp, forall_and] using ⟨fun a b hab => h.lengths (a, b) hab, hexp⟩
  · intro r hr
    rcases List.mem_append.1 hr with hr | hr
    · exact h.keys r hr
    · rw [List.mem_singleton.1 hr]
      exact hkey
  · rw [List.map_append, List.nodup_append]
    refine ⟨h.once, List.nodup_singleton _, fun a ha b hb => ?_⟩
    rw [List.map_singleton, List.mem_singleton] at hb
    rintro rfl
    rw [hb] at ha
    exact hnew ha

theorem lookup_snoc (t u : ℕ) (v : Bytes) : (done ++ [(t, v)]).lookup u =
    (done.lookup u).or (if u = t then some v else none) := by
  rw [List.lookup_append]
  by_cases hu : u = t
  · simp [List.lookup, hu]
  · simp [List.lookup, hu, beq_false_of_ne hu]

theorem lookup_snoc_self {t : ℕ} (hnew : t ∉ done.map Prod.fst) (v : Bytes) :
    (done ++ [(t, v)]).lookup t = some v := by
  have hnone : done.lookup t = none := by
    rw [← Option.not_isSome_iff_eq_none, lookup_some_iff]
    exact hnew
  rw [lookup_snoc, hnone, if_pos rfl, Option.none_or]

theorem lookup_snoc_other {t u : ℕ} (hu : u ≠ t) (v : Bytes) :
    (done ++ [(t, v)]).lookup u = done.lookup u := by
  rw [lookup_snoc, if_neg hu, Option.or_none]

/-- A component is added when its type is new and its value a key. -/
theorem Took.add (h : Took lib done) {t : ℕ} {v : Bytes} (hexp : expectedLength t = some v.length) :
    (t ∉ done.map Prod.fst ∧ IsKey lib (t, v) ∧
      addComponent lib (held lib done remaining) t v = .ok (held lib (done ++ [(t, v)]) remaining)) ∨
    (¬ (t ∉ done.map Prod.fst ∧ IsKey lib (t, v)) ∧
      ∃ e, addComponent lib (held lib done remaining) t v = .error (.error e)) := by
  have htype := expectedLength_types hexp
  simp only [List.mem_cons, List.not_mem_nil, or_false] at htype
  unfold addComponent
  rcases htype with rfl | rfl | rfl
  · rw [if_pos rfl]
    by_cases hold : typecodeP2pkh ∈ done.map Prod.fst
    · rw [if_pos (h.p2pkh_iff.2 hold)]
      exact .inr ⟨fun hn => hn.1 hold, _, rfl⟩
    · rw [if_neg fun hs => hold (h.p2pkh_iff.1 hs)]
      cases hkey : lib.accountPrivKey v with
      | none =>
        refine .inr ⟨?_, _, rfl⟩
        rintro ⟨-, ⟨-, hv⟩ | ⟨ht, -⟩ | ⟨ht, -⟩⟩
        · rw [hkey] at hv
          cases hv
        · cases ht
        · cases ht
      | some k =>
        refine .inl ⟨hold, .inl ⟨rfl, by rw [hkey]; rfl⟩, ?_⟩
        simp only [orElse, Except.map, held, lookup_snoc_self hold, Option.bind_some, hkey,
          lookup_snoc_other (show typecodeSapling ≠ typecodeP2pkh by decide),
          lookup_snoc_other (show typecodeOrchard ≠ typecodeP2pkh by decide)]
  · rw [if_neg (by decide), if_pos rfl]
    by_cases hold : typecodeSapling ∈ done.map Prod.fst
    · rw [if_pos (h.sapling_iff.2 hold)]
      exact .inr ⟨fun hn => hn.1 hold, _, rfl⟩
    · rw [if_neg fun hs => hold (h.sapling_iff.1 hs)]
      cases hkey : lib.extendedSpendingKey v with
      | none =>
        refine .inr ⟨?_, _, rfl⟩
        rintro ⟨-, ⟨ht, -⟩ | ⟨-, hv⟩ | ⟨ht, -⟩⟩
        · cases ht
        · rw [hkey] at hv
          cases hv
        · cases ht
      | some k =>
        refine .inl ⟨hold, .inr (.inl ⟨rfl, by rw [hkey]; rfl⟩), ?_⟩
        simp only [orElse, Except.map, held, lookup_snoc_self hold, Option.bind_some, hkey,
          lookup_snoc_other (show typecodeP2pkh ≠ typecodeSapling by decide),
          lookup_snoc_other (show typecodeOrchard ≠ typecodeSapling by decide)]
  · have hlength : v.length = 32 := (Option.some.inj hexp).symm
    rw [if_neg (by decide), if_neg (by decide), if_pos rfl]
    by_cases hold : typecodeOrchard ∈ done.map Prod.fst
    · rw [if_pos (orchard_iff.2 hold)]
      exact .inr ⟨fun hn => hn.1 hold, _, rfl⟩
    · rw [if_neg fun hs => hold (orchard_iff.1 hs), if_neg (not_not.2 hlength)]
      by_cases hkey : lib.orchardSpendingKey v = true
      · rw [if_pos hkey]
        refine .inl ⟨hold, .inr (.inr ⟨rfl, hkey⟩), ?_⟩
        simp only [held, lookup_snoc_self hold, Option.isSome_some,
          lookup_snoc_other (show typecodeP2pkh ≠ typecodeOrchard by decide),
          lookup_snoc_other (show typecodeSapling ≠ typecodeOrchard by decide)]
      · rw [if_neg hkey]
        refine .inr ⟨?_, _, rfl⟩
        rintro ⟨-, ⟨ht, -⟩ | ⟨ht, -⟩ | ⟨-, hv⟩⟩
        · cases ht
        · cases ht
        · exact hkey hv

/-! ### The loop -/

theorem Denotes.once {records : List (ℕ × Bytes)} {key : SigningKey P S U}
    (h : Denotes lib bytes records key) :
    (records.map Prod.fst).Nodup ∧ ∀ r ∈ records, IsKey lib r := by
  cases h with
  | transparent hkey =>
    exact ⟨List.nodup_singleton _, List.forall_mem_singleton.2 (.inl ⟨rfl, by rw [hkey]; rfl⟩)⟩
  | sapling hkey =>
    exact ⟨List.nodup_singleton _, List.forall_mem_singleton.2 (.inr (.inl ⟨rfl, by rw [hkey]; rfl⟩))⟩
  | unified htypes hkeys _ => exact ⟨htypes.nodup_iff.2 (by decide), hkeys⟩

theorem Denotes.length_le {records : List (ℕ × Bytes)} {key : SigningKey P S U}
    (h : Denotes lib bytes records key) : records.length ≤ 3 := by
  cases h with
  | transparent _ => simp
  | sapling _ => simp
  | unified htypes _ _ => simpa using htypes.length_eq.le

theorem Took.alone (h : Took lib done) {t : ℕ} (ht : t ∈ done.map Prod.fst)
    (hall : ∀ u ∈ done.map Prod.fst, u = t) : ∃ v, done = [(t, v)] := by
  have honce := h.once
  rw [List.eq_replicate_of_mem hall, List.nodup_replicate, List.length_map] at honce
  have hpos : 0 < done.length := by
    obtain ⟨r, hr, -⟩ := List.mem_map.1 ht
    exact List.length_pos_of_mem hr
  obtain ⟨⟨u, v⟩, rfl⟩ := List.length_eq_one_iff.1 (show done.length = 1 by omega)
  exact ⟨v, by rw [hall u (by simp)]⟩

theorem Denotes.finish {key : SigningKey P S U} (hkey : Denotes lib bytes done key)
    (h : Took lib done) (hfull : (held lib done remaining).full = false) :
    finish (held lib done remaining) = .ok key := by
  cases hkey with
  | transparent hkey =>
    simp [finish, held, List.lookup, hkey, typecodeP2pkh, typecodeSapling, typecodeOrchard]
  | sapling hkey =>
    simp [finish, held, List.lookup, hkey, typecodeP2pkh, typecodeSapling, typecodeOrchard]
  | unified htypes _ _ =>
    rw [h.full_iff.2 htypes] at hfull
    cases hfull

theorem Took.types_eq (h : Took lib done) {t : ℕ}
    (hp : typecodeP2pkh ∈ done.map Prod.fst → typecodeP2pkh = t)
    (hs : typecodeSapling ∈ done.map Prod.fst → typecodeSapling = t)
    (ho : typecodeOrchard ∈ done.map Prod.fst → typecodeOrchard = t) :
    ∀ u ∈ done.map Prod.fst, u = t := by
  intro u hu
  have htype := h.types hu
  simp only [List.mem_cons, List.not_mem_nil, or_false] at htype
  rcases htype with rfl | rfl | rfl
  · exact hp hu
  · exact hs hu
  · exact ho hu

theorem Took.denotes (h : Took lib done) {key : SigningKey P S U}
    (hkey : finish (held lib done remaining) = .ok key) : Denotes lib bytes done key := by
  have hp := @Took.p2pkh_iff _ _ _ _ _ _ remaining h
  have hs := @Took.sapling_iff _ _ _ _ _ _ remaining h
  have ho := @orchard_iff _ _ _ _ lib done remaining
  unfold finish at hkey
  split at hkey
  · rename_i k hk hnone hfalse
    cases hkey
    rw [hk] at hp
    rw [hnone] at hs
    rw [hfalse] at ho
    obtain ⟨v, rfl⟩ := h.alone (hp.1 rfl) (h.types_eq (fun _ => rfl) (fun hmem => by cases hs.2 hmem)
      fun hmem => by cases ho.2 hmem)
    exact .transparent hk
  · rename_i k hnone hk hfalse
    cases hkey
    rw [hnone] at hp
    rw [hk] at hs
    rw [hfalse] at ho
    obtain ⟨v, rfl⟩ := h.alone (hs.1 rfl) (h.types_eq (fun hmem => by cases hp.2 hmem) (fun _ => rfl)
      fun hmem => by cases ho.2 hmem)
    exact .sapling hk
  all_goals cases hkey

theorem Took.finish_spec (h : Took lib done) (hfull : (held lib done remaining).full = false) :
    finish (U := U) (held lib done remaining) ≠ .error .panic ∧
      ∀ key : SigningKey P S U, finish (held lib done remaining) = .ok key ↔
        Denotes lib bytes done key := by
  refine ⟨fun hpanic => ?_, fun key => ⟨h.denotes, fun hkey => hkey.finish h hfull⟩⟩
  unfold finish at hpanic
  split at hpanic
  all_goals try cases hpanic
  rename_i hp hs ho
  unfold Envelope.full at hfull
  rw [hp, hs, ho] at hfull
  cases hfull

/-- The last component: the whole is decoded again, unless something follows. -/
theorem Took.unify_spec (h : Took lib done) (hfull : (held lib done remaining).full = true) :
    unify lib bytes (held lib done remaining) ≠ .error .panic ∧
      ∀ key, unify lib bytes (held lib done remaining) = .ok key ↔
        ∃ records, Parses lib remaining records ∧ Denotes lib bytes (done ++ records) key := by
  have htypes := h.full_iff.1 hfull
  have hthree : done.length = 3 := by simpa using htypes.length_eq
  unfold unify
  change (if remaining ≠ [] then _ else _) ≠ _ ∧ ∀ key, (if remaining ≠ [] then _ else _) = _ ↔ _
  by_cases hnil : remaining = []
  · subst hnil
    rw [if_neg (not_not.2 rfl)]
    refine ⟨fun hpanic => ?_, fun key => ?_⟩
    · have herr := map_eq_error.1 hpanic
      cases hu : lib.unifiedSpendingKey bytes with
      | none =>
        rw [hu] at herr
        cases herr
      | some u =>
        rw [hu] at herr
        cases herr
    · simp only [parses_nil, exists_eq_left, List.append_nil]
      rw [map_eq_ok]
      constructor
      · rintro ⟨usk, husk, rfl⟩
        exact .unified htypes h.keys (orElse_ok.1 husk)
      · intro hkey
        cases hkey with
        | transparent _ => cases hthree
        | sapling _ => cases hthree
        | unified _ _ husk => exact ⟨_, orElse_ok.2 husk, rfl⟩
  · rw [if_pos hnil]
    refine ⟨by simp, fun key => ⟨fun hk => (by cases hk), ?_⟩⟩
    rintro ⟨records, hparses, hkey⟩
    have hle := hkey.length_le
    rw [List.length_append, hthree] at hle
    obtain rfl := List.length_eq_zero_iff.1 (show records.length = 0 by omega)
    exact absurd hparses.1 hnil

/-- From any records taken, the rest of the bytes is decoded to what all the records stand for. -/
theorem decode_from (hlib : lib.Lawful) (h : Took lib done)
    (hfull : (held lib done remaining).full = false) :
    ∃ result, Ends (decodeTurn lib bytes) (held lib done remaining) result ∧
      result ≠ .error .panic ∧ ∀ key, result = .ok key ↔
        ∃ records, Parses lib remaining records ∧ Denotes lib bytes (done ++ records) key := by
  induction hn : remaining.length using Nat.strong_induction_on generalizing done remaining with
  | h n ih =>
    subst hn
    by_cases hnil : remaining = []
    · subst hnil
      obtain ⟨hpanic, hkey⟩ := @Took.finish_spec _ _ _ _ _ bytes _ _ h hfull
      refine ⟨_, .of_inr (if_pos rfl), hpanic, fun key => ?_⟩
      simp only [parses_nil, exists_eq_left, List.append_nil]
      exact hkey key
    · have hturn : decodeTurn lib bytes (held lib done remaining) =
          match recordTurn lib (held lib done remaining) with
          | .error e => .inr (.error e)
          | .ok s' => if s'.full then .inr (unify lib bytes s') else .inl s' := if_neg hnil
      cases hread : readRecord lib remaining with
      | error e =>
        have hrecord : recordTurn lib (held lib done remaining) = .error e := by
          unfold recordTurn
          rw [show (held lib done remaining).remaining = remaining from rfl, hread]
          rfl
        rw [hrecord] at hturn
        refine ⟨.error e, .of_inr hturn, ?_, fun key => ⟨fun hk => (by cases hk), ?_⟩⟩
        · rintro he
          cases he
          exact readRecord_ne_panic remaining hread
        · rintro ⟨records, hparses, -⟩
          exact absurd hparses (not_parses hlib hread hnil records)
      | ok found =>
        obtain ⟨t, v, rest⟩ := found
        obtain ⟨hexp, hbs⟩ := (readRecord_ok_iff hlib).1 hread
        have hparses := fun records => @parses_cons _ _ _ _ _ hlib _ _ _ _ hread records
        have hrecord : recordTurn lib (held lib done remaining) =
            addComponent lib (held lib done rest) t v := by
          unfold recordTurn
          rw [show (held lib done remaining).remaining = remaining from rfl, hread]
          rfl
        rw [hrecord] at hturn
        rcases @Took.add _ _ _ _ _ _ rest h _ _ hexp with ⟨hnew, hkey, hadd⟩ | ⟨hbad, e, hadd⟩
        · rw [hadd] at hturn
          dsimp only at hturn
          have hsnoc := h.snoc hexp hnew hkey
          have hmove : ∀ key, (∃ records, Parses lib remaining records ∧
              Denotes lib bytes (done ++ records) key) ↔ ∃ more, Parses lib rest more ∧
              Denotes lib bytes (done ++ [(t, v)] ++ more) key := by
            intro key
            simp only [hparses, List.append_assoc, List.singleton_append]
            constructor
            · rintro ⟨_, ⟨more, rfl, hmore⟩, hkey⟩
              exact ⟨more, hmore, hkey⟩
            · rintro ⟨more, hmore, hkey⟩
              exact ⟨_, ⟨more, rfl, hmore⟩, hkey⟩
          simp only [hmove]
          cases hfull' : (held lib (done ++ [(t, v)]) rest).full with
          | true =>
            rw [if_pos hfull'] at hturn
            obtain ⟨hpanic, hkeys⟩ := @Took.unify_spec _ _ _ _ _ bytes _ _ hsnoc hfull'
            exact ⟨_, .of_inr hturn, hpanic, hkeys⟩
          | false =>
            rw [if_neg (Bool.eq_false_iff.1 hfull')] at hturn
            have hpos := @encodeRecord_pos _ _ _ _ lib (t, v) hexp
            have hlength := congrArg List.length hbs
            rw [List.length_append] at hlength
            obtain ⟨result, hends, hspec⟩ := ih rest.length (by omega) hsnoc hfull' rfl
            exact ⟨result, hends.of_inl hturn, hspec⟩
        · rw [hadd] at hturn
          refine ⟨_, .of_inr hturn, by simp, fun key => ⟨fun hk => (by cases hk), ?_⟩⟩
          rintro ⟨records, hrecords, hdenotes⟩
          obtain ⟨more, rfl, -⟩ := (hparses records).1 hrecords
          obtain ⟨honce, hkeys⟩ := hdenotes.once
          refine absurd ⟨fun hold => ?_, hkeys (t, v) (by simp)⟩ hbad
          rw [List.map_append, List.nodup_append] at honce
          exact honce.2.2 t hold t (by simp) rfl

end Held

/-! ### Envelopes -/

section Envelopes
variable {P S U X : Type} {lib : Libraries P S U X} {bytes : Bytes} {records : List (ℕ × Bytes)}

theorem Denotes.admitted {key : SigningKey P S U} (h : Denotes lib bytes records key) :
    Admitted (records.map Prod.fst) := by
  cases h with
  | transparent _ => exact .inl rfl
  | sapling _ => exact .inr (.inl rfl)
  | unified htypes _ _ => exact .inr (.inr htypes)

theorem decode_cons (b0 b1 b2 b3 : UInt8) (rest : Bytes) (fuel : ℕ) :
    decode lib (b0 :: b1 :: b2 :: b3 :: rest) fuel =
      if fromLe [b0, b1, b2, b3] ≠ lib.nu5 then
        some (.error (.error (.unknownEra (fromLe [b0, b1, b2, b3]))))
      else iterate (decodeTurn lib (b0 :: b1 :: b2 :: b3 :: rest)) fuel ⟨rest, none, none, false⟩ :=
  if_neg (by simp)

/-- Every string of bytes is decoded, to what its records stand for, and without a panic. -/
theorem decode_spec (hlib : lib.Lawful) (bytes : Bytes) :
    ∃ result bound, (∀ fuel, bound ≤ fuel → decode lib bytes fuel = some result) ∧
      result ≠ .error .panic ∧ ∀ key, result = .ok key ↔
        ∃ records, Written lib bytes records ∧ Denotes lib bytes records key := by
  have hheader : ∀ records, Written lib bytes records → bytes.take 4 = toLe 4 lib.nu5 := by
    rintro records ⟨hbytes, -⟩
    rw [hbytes, List.take_left' (toLe_length 4 lib.nu5)]
  by_cases hshort : bytes.length < 4
  · refine ⟨_, 0, fun _ _ => if_pos hshort, by simp, fun key => ⟨fun hk => (by cases hk), ?_⟩⟩
    rintro ⟨records, hwritten, -⟩
    have hlength := congrArg List.length (hheader records hwritten)
    rw [List.length_take, toLe_length] at hlength
    omega
  · match bytes, hheader, hshort with
    | [], _, hshort => simp at hshort
    | [_], _, hshort => simp at hshort
    | [_, _], _, hshort => simp at hshort
    | [_, _, _], _, hshort => simp at hshort
    | b0 :: b1 :: b2 :: b3 :: rest, hheader, _ =>
      change ∀ records, _ → [b0, b1, b2, b3] = toLe 4 lib.nu5 at hheader
      by_cases hera : fromLe [b0, b1, b2, b3] = lib.nu5
      · have hfour : toLe 4 lib.nu5 = [b0, b1, b2, b3] := by
          rw [← hera]
          exact toLe_fromLe [b0, b1, b2, b3]
        obtain ⟨result, ⟨bound, hrun⟩, hpanic, hkey⟩ :=
          @decode_from _ _ _ _ _ (b0 :: b1 :: b2 :: b3 :: rest) _ rest hlib Took.nil rfl
        refine ⟨result, bound, fun fuel hfuel => ?_, hpanic, fun key => (hkey key).trans ?_⟩
        · rw [decode_cons, if_neg (not_not.2 hera)]
          exact hrun fuel hfuel
        simp only [List.nil_append]
        refine exists_congr fun records => ?_
        unfold Written Parses
        rw [hfour]
        simp only [List.cons_append, List.nil_append, List.cons.injEq, true_and]
        constructor
        · rintro ⟨⟨hrest, hlengths⟩, hkey⟩
          exact ⟨⟨hrest, hlengths, hkey.admitted⟩, hkey⟩
        · rintro ⟨⟨hrest, hlengths, -⟩, hkey⟩
          exact ⟨⟨hrest, hlengths⟩, hkey⟩
      · refine ⟨_, 0, fun fuel _ => (decode_cons b0 b1 b2 b3 rest fuel).trans (if_pos hera), by simp,
          fun key => ⟨fun hk => (by cases hk), ?_⟩⟩
        rintro ⟨records, hwritten, -⟩
        refine absurd ?_ hera
        rw [hheader records hwritten]
        exact fromLe_toLe hlib.nu5

/-- Admitted records stand for a key when each of them is one, and all three are one together. -/
theorem denotes_iff (hadm : Admitted (records.map Prod.fst)) :
    (∃ key, Denotes lib bytes records key) ↔ (∀ r ∈ records, IsKey lib r) ∧
      (records.length = 3 → (lib.unifiedSpendingKey bytes).isSome = true) := by
  constructor
  · rintro ⟨key, hkey⟩
    refine ⟨hkey.once.2, fun hthree => ?_⟩
    cases hkey with
    | transparent _ => cases hthree
    | sapling _ => cases hthree
    | unified _ _ husk => rw [husk]; rfl
  · rintro ⟨hkeys, hunified⟩
    rcases hadm with hone | hone | hall
    · obtain ⟨⟨t, v⟩, rfl, rfl⟩ := List.map_eq_singleton_iff.1 hone
      rcases hkeys _ (List.mem_singleton_self _) with ⟨-, hkey⟩ | ⟨ht, -⟩ | ⟨ht, -⟩
      · obtain ⟨k, hk⟩ := Option.isSome_iff_exists.1 hkey
        exact ⟨_, .transparent hk⟩
      · cases ht
      · cases ht
    · obtain ⟨⟨t, v⟩, rfl, rfl⟩ := List.map_eq_singleton_iff.1 hone
      rcases hkeys _ (List.mem_singleton_self _) with ⟨ht, -⟩ | ⟨-, hkey⟩ | ⟨ht, -⟩
      · cases ht
      · obtain ⟨k, hk⟩ := Option.isSome_iff_exists.1 hkey
        exact ⟨_, .sapling hk⟩
      · cases ht
    · have hthree : records.length = 3 := by simpa using hall.length_eq
      obtain ⟨usk, husk⟩ := Option.isSome_iff_exists.1 (hunified hthree)
      exact ⟨_, .unified hall hkeys husk⟩

theorem decode_single (hlib : lib.Lawful) {t : ℕ} {v : Bytes} {key : SigningKey P S U}
    (hexp : expectedLength t = some v.length)
    (hkey : Denotes lib (singleComponentEnvelope lib t v) [(t, v)] key) :
    ∃ bound, ∀ fuel, bound ≤ fuel →
      decode lib (singleComponentEnvelope lib t v) fuel = some (.ok key) := by
  obtain ⟨result, bound, hrun, -, hresult⟩ := decode_spec hlib (singleComponentEnvelope lib t v)
  have hwritten : Written lib (singleComponentEnvelope lib t v) [(t, v)] :=
    ⟨by simp [singleComponentEnvelope], by simpa using hexp, hkey.admitted⟩
  refine ⟨bound, fun fuel hfuel => ?_⟩
  rw [hrun fuel hfuel, (hresult key).2 ⟨_, hwritten, hkey⟩]

/-- Decoding never panics, and succeeds exactly on what is written by the grammar with keys as
    values; what was encoded is decoded to what it was. -/
theorem decode_accepts (lib : Libraries P S U X) (hlib : lib.Lawful) :
    (∀ bytes, ∃ result bound, (∀ fuel, bound ≤ fuel → decode lib bytes fuel = some result) ∧
      result ≠ .error .panic ∧ ((∃ key, result = .ok key) ↔ ∃ records, Written lib bytes records ∧
        (∀ r ∈ records, IsKey lib r) ∧
        (records.length = 3 → (lib.unifiedSpendingKey bytes).isSome = true))) ∧
    (∀ xprv envelope, encodeTransparent lib xprv = .ok envelope → ∃ x bound,
      lib.xprvFromStr xprv = some x ∧ ∀ fuel, bound ≤ fuel →
        decode lib envelope fuel = some (.ok (.transparent (lib.fromExtendedPrivkey x)))) ∧
    ∀ esk hrp envelope, encodeSapling lib esk hrp = .ok envelope → ∃ k bound,
      lib.decodeExtendedSpendingKey hrp esk = some k ∧ ∀ fuel, bound ≤ fuel →
        decode lib envelope fuel = some (.ok (.sapling k)) := by
  refine ⟨fun bytes => ?_, fun xprv envelope h => ?_, fun esk hrp envelope h => ?_⟩
  · obtain ⟨result, bound, hrun, hpanic, hkey⟩ := decode_spec hlib bytes
    refine ⟨result, bound, hrun, hpanic, ?_⟩
    simp only [hkey]
    rw [exists_comm]
    refine exists_congr fun records => ?_
    rw [exists_and_left]
    exact and_congr_right fun hwritten => denotes_iff hwritten.2.2
  · unfold encodeTransparent at h
    cases hx : lib.xprvFromStr xprv with
    | none =>
      rw [hx] at h
      cases h
    | some x =>
      rw [hx] at h
      cases h
      obtain ⟨hlength, hkey⟩ := hlib.transparent (lib.fromExtendedPrivkey x)
      obtain ⟨bound, hrun⟩ := @decode_single _ _ _ _ lib hlib typecodeP2pkh _ _
        (by rw [hlength]; rfl) (.transparent hkey)
      exact ⟨x, bound, rfl, hrun⟩
  · unfold encodeSapling at h
    cases hk : lib.decodeExtendedSpendingKey hrp esk with
    | none =>
      rw [hk] at h
      cases h
    | some k =>
      rw [hk] at h
      cases h
      obtain ⟨hlength, hkey⟩ := hlib.sapling k
      obtain ⟨bound, hrun⟩ := @decode_single _ _ _ _ lib hlib typecodeSapling _ _
        (by rw [hlength]; rfl) (.sapling hkey)
      exact ⟨k, bound, rfl, hrun⟩

end Envelopes

/-! ### Two envelopes -/

/-- The bytes after the prefix of an extended private key; its key is a byte of zero and a number. -/
def xprvBytes (b : Bytes) : Bool :=
  b.length == 74 && b.getD 41 1 == 0 && (b.drop 42).any (· ≠ 0)

def eskBytes (b : Bytes) : Bool :=
  b.length == 169 && (b.getD 0 0 ≠ 0 || ((b.drop 5).take 4).all (· = 0))

/-- The first test vector of BIP 32. -/
def testXprv : String :=
  "xprv9s21ZrQH143K3QTDL4LXw2F7HEK3wJUD2nW2nRk4stbPy6cq3jPPqjiChkVvvNKmPGJxWUtg6LnF5kejMRNNU3TGtRBeJgk33yuGBxrMPHi"

def testKey : Bytes :=
  [0, 0, 0, 0, 0, 0, 0, 0, 0, 135, 61, 255, 129, 192, 47, 82, 86, 35, 253, 31, 229, 22, 126, 172, 58,
    85, 160, 73, 222, 61, 49, 75, 180, 46, 226, 39, 255, 237, 55, 213, 8, 0, 232, 243, 46, 114, 61,
    236, 244, 5, 26, 239, 172, 142, 44, 147, 201, 197, 178, 20, 49, 56, 23, 205, 176, 26, 20, 148,
    185, 23, 200, 67, 107, 53]

def sampleXprv (s : String) : Option { b // xprvBytes b = true } :=
  if s = testXprv then some ⟨testKey, by decide⟩ else none

def sampleEsk (b : Bytes) : Option { b // eskBytes b = true } :=
  if h : eskBytes b = true then some ⟨b, h⟩ else none

def sample : Libraries { b // xprvBytes b = true } { b // eskBytes b = true } Unit
    { b // xprvBytes b = true } where
  nu5 := 0xC2D6D0B4
  readCompact
    | b :: rest => if b.toNat < 253 then some (b.toNat, rest) else none
    | [] => none
  writeCompact n := if n < 253 then [UInt8.ofNat n] else []
  accountPrivKey b := if h : xprvBytes b = true then some ⟨b, h⟩ else none
  accountPrivKeyBytes k := k.1
  extendedSpendingKey := sampleEsk
  extendedSpendingKeyBytes k := k.1
  orchardSpendingKey _ := true
  unifiedSpendingKey _ := some ()
  xprvFromStr := sampleXprv
  fromExtendedPrivkey x := x
  decodeExtendedSpendingKey _ _ := none

theorem sample_lawful : sample.Lawful where
  nu5 := by decide
  read_write n hn rest := by
    have hbyte : (UInt8.ofNat n).toNat = n := by
      rw [UInt8.toNat_ofNat']
      omega
    change sample.readCompact ((if n < 253 then [UInt8.ofNat n] else []) ++ rest) = _
    rw [if_pos hn]
    change (if (UInt8.ofNat n).toNat < 253 then some ((UInt8.ofNat n).toNat, rest) else none) = _
    rw [hbyte, if_pos hn]
  canonical bs n rest h := by
    cases bs with
    | nil => cases h
    | cons b bs =>
      change (if b.toNat < 253 then some (b.toNat, bs) else none) = some (n, rest) at h
      split_ifs at h with hb
      cases h
      change b :: rest = (if b.toNat < 253 then [UInt8.ofNat b.toNat] else []) ++ rest
      rw [if_pos hb, UInt8.ofNat_toNat, List.singleton_append]
  transparent k := by
    obtain ⟨b, hb⟩ := k
    refine ⟨?_, dif_pos hb⟩
    unfold xprvBytes at hb
    simp only [Bool.and_eq_true, beq_iff_eq] at hb
    exact hb.1.1
  sapling k := by
    obtain ⟨b, hb⟩ := k
    refine ⟨?_, dif_pos hb⟩
    unfold eskBytes at hb
    simp only [Bool.and_eq_true, beq_iff_eq] at hb
    exact hb.1

/-- The key of the test vector, encoded and decoded. -/
theorem testXprv_accepted :
    (∃ result bound, (∀ fuel, bound ≤ fuel →
        decode sample (singleComponentEnvelope sample typecodeP2pkh testKey) fuel = some result) ∧
      result ≠ .error .panic ∧ ((∃ key, result = .ok key) ↔ ∃ records,
        Written sample (singleComponentEnvelope sample typecodeP2pkh testKey) records ∧
        (∀ r ∈ records, IsKey sample r) ∧ (records.length = 3 → (sample.unifiedSpendingKey
          (singleComponentEnvelope sample typecodeP2pkh testKey)).isSome = true))) ∧
    ∃ x bound, sample.xprvFromStr testXprv = some x ∧ ∀ fuel, bound ≤ fuel →
      decode sample (singleComponentEnvelope sample typecodeP2pkh testKey) fuel =
        some (.ok (.transparent (sample.fromExtendedPrivkey x))) := by
  have hencoded : encodeTransparent sample testXprv =
      .ok (singleComponentEnvelope sample typecodeP2pkh testKey) := by
    unfold encodeTransparent
    have hx : sample.xprvFromStr testXprv = some ⟨testKey, by decide⟩ := by
      change sampleXprv testXprv = _
      unfold sampleXprv
      rw [if_pos rfl]
    rw [hx]
    rfl
  exact ⟨(decode_accepts sample sample_lawful).1 _,
    (decode_accepts sample sample_lawful).2.1 testXprv _ hencoded⟩

theorem sample_rejects {b : Bytes} (h : eskBytes b = false) : sample.extendedSpendingKey b = none :=
  dif_neg fun hok => Bool.false_ne_true (h.symm.trans hok)

def malformedKey : Bytes := [0, 0, 0, 0, 0, 1] ++ List.replicate 163 0

/-- A record as the grammar has it whose value is not a key. -/
theorem malformedKey_rejected :
    Written sample (singleComponentEnvelope sample typecodeSapling malformedKey)
      [(typecodeSapling, malformedKey)] ∧
    ∀ fuel, 1 ≤ fuel → decode sample (singleComponentEnvelope sample typecodeSapling malformedKey) fuel =
      some (.error (.error (.malformedComponent typecodeSapling))) := by
  have hexp : expectedLength typecodeSapling = some malformedKey.length := by
    rw [malformedKey, List.length_append, List.length_replicate]
    rfl
  refine ⟨⟨by simp [singleComponentEnvelope], by simpa using hexp, .inr (.inl rfl)⟩, ?_⟩
  intro fuel hfuel
  obtain ⟨fuel, rfl⟩ := Nat.exists_eq_add_of_le' hfuel
  have hread : readRecord sample (encodeRecord sample (typecodeSapling, malformedKey)) =
      .ok (typecodeSapling, malformedKey, []) :=
    (readRecord_ok_iff sample_lawful).2 ⟨hexp, (List.append_nil _).symm⟩
  have hbad : sample.extendedSpendingKey malformedKey = none := sample_rejects (by decide +kernel)
  have hturn : ∀ bytes, decodeTurn sample bytes
      ⟨encodeRecord sample (typecodeSapling, malformedKey), none, none, false⟩ =
        .inr (.error (.error (.malformedComponent typecodeSapling))) := by
    intro bytes
    unfold decodeTurn recordTurn
    dsimp only
    rw [if_neg (List.ne_nil_of_length_pos (encodeRecord_pos hexp)), hread, ok_bind]
    dsimp only [addComponent]
    rw [if_neg (by decide), if_pos rfl, hbad]
    rfl
  have hheader : toLe 4 sample.nu5 = [0xB4, 0xD0, 0xD6, 0xC2] := by decide
  unfold singleComponentEnvelope
  rw [hheader, List.cons_append, List.cons_append, List.cons_append, List.cons_append,
    List.nil_append]
  refine (decode_cons _ _ _ _ _ _).trans ?_
  rw [if_neg (by decide), iterate, hturn]

end ZcashSdk.SigningKeys
