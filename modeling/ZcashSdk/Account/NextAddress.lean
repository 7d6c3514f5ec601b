import Mathlib.Data.Finset.Card
import Mathlib.Order.Bounds.Basic
import ZcashSdk.Db.Addresses

set_option autoImplicit false

/-!
# The next transparent address

Two searches for an index: the next after the highest stored one, and the lowest receive
index that is neither used nor handed out. The second derives its candidates; how many it
looks at is bounded by counting.
-/
namespace ZcashSdk.Account
open Tables Shielded Db Database

variable {H : Type} [DecidableEq H]

/-- The encoded address of a key, a scope and an index; none where the derivation panics. -/
abbrev DeriveAddress := (xvk : Bytes) → (scope dindex : ℕ) → Option Bytes

/-- Neither scopes nor child indexes are hardened, and under one key no two give one address. -/
structure DeriveAddress.Lawful (derive : DeriveAddress) (xvk : Bytes) : Prop where
  injective : ∀ scope i scope' j address, derive xvk scope i = some address →
    derive xvk scope' j = some address → scope = scope' ∧ i = j
  defined : ∀ scope i, (derive xvk scope i).isSome = true ↔ scope < 2 ^ 31 ∧ i < 2 ^ 31

inductive AddressError where
  | invalidChildIndex (dindex : ℕ)
  | noUnusedAddress (account last : ℕ)
  | couldNotAllocate (account scope : ℕ)
  deriving DecidableEq

structure NextUnusedAddress where
  address : Bytes
  certified : Bool
  gap : ℕ
  deriving DecidableEq

/-- The addresses handed out and not yet seen used. Either bridge bounds how many there are:
    one string of the Java side holds them all, and the Dart side sends an `i32` length. -/
structure Excluded where
  addresses : List Bytes
  fits : addresses.length < 2 ^ 31

/-! ### The searches -/

/-- The viewing key of the account; the private key only fills a column. -/
def getTransparentKeys (db : Database H) (account : ℕ) : Option Bytes :=
  (db.accountRow account).bind fun a => if a.transparent then a.xvk else none

def afterHighest (db : Database H) (account scope : ℕ) : ℕ :=
  ((db.highestStoredDindex account scope).map (· + 1)).getD 0

section Search
variable (derive : DeriveAddress) (xvk : Bytes) (account last : ℕ) (excluded : List Bytes)
  (db : Database H)

def searchUnused : List ℕ → Except AddressError (Option NextUnusedAddress) × Database H
  | [] => (.error (.noUnusedAddress account last), db)
  | dindex :: rest =>
    match derive xvk 0 dindex with
    | none => (.error (.invalidChildIndex dindex), db)
    | some address =>
      if excluded.any (fun reserved => reserved = address) ||
          db.transparentAddressIsUsed account address then
        searchUnused rest
      else
        let stored := db.storeAccountTransparentAddr account 0 dindex address
        let coverage := stored.readTransparentCoverage account
        (.ok (some ⟨address, coverage.certified, coverage.gap⟩), stored)

end Search

def nextUnusedReceiveAddress (derive : DeriveAddress) (db : Database H) (account : ℕ)
    (excluded : List Bytes) : Except AddressError (Option NextUnusedAddress) × Database H :=
  match getTransparentKeys db account with
  | none => (.ok none, db)
  | some xvk =>
    let last := u32 (u32 (afterHighest db account 0) + u32 excluded.length)
    searchUnused derive xvk account last excluded db (List.range (last + 1))

def defaultTaddress (db : Database H) (account : ℕ) : Option Bytes :=
  (db.accountRow account).bind fun a =>
    (db.transparentAddressRow account 0 a.dindex).map Prod.snd

/-! ### What is used -/

/-- Every stored address of the account is the one its key derives. -/
def DerivedRows (derive : DeriveAddress) (db : Database H) (account : ℕ) : Prop :=
  ∀ xvk, getTransparentKeys db account = some xvk → ∀ r ∈ db.addresses.rows,
    r.account = account → derive xvk r.scope r.dindex = some r.address

def receiveAddress (derive : DeriveAddress) (db : Database H) (account dindex : ℕ) :
    Option Bytes :=
  (getTransparentKeys db account).bind fun xvk => derive xvk 0 dindex

def IsUsed (derive : DeriveAddress) (db : Database H) (account dindex : ℕ) : Prop :=
  ∃ address, receiveAddress derive db account dindex = some address ∧
    db.transparentAddressIsUsed account address = true

def IsExcluded (derive : DeriveAddress) (db : Database H) (account : ℕ) (excluded : List Bytes)
    (dindex : ℕ) : Prop :=
  ∃ address, receiveAddress derive db account dindex = some address ∧ address ∈ excluded

def freeIndexes (derive : DeriveAddress) (db : Database H) (account : ℕ) (excluded : List Bytes) :
    Set ℕ :=
  {j | (receiveAddress derive db account j).isSome = true ∧ ¬ IsUsed derive db account j ∧
    ¬ IsExcluded derive db account excluded j}

/-! ### Counting -/

theorem le_add_length_of_taken {β : Type} [DecidableEq β] (f : ℕ → β) {k n : ℕ} (xs : List β)
    (hinj : ∀ i < k, ∀ j < k, f i = f j → i = j) (htaken : ∀ j < k, j < n ∨ f j ∈ xs) :
    k ≤ n + xs.length := by
  let listed := (Finset.range k).filter fun j => f j ∈ xs
  have hcover : Finset.range k ⊆ Finset.range n ∪ listed := by
    intro j hj
    rw [Finset.mem_union, Finset.mem_range, Finset.mem_filter]
    exact (htaken j (Finset.mem_range.1 hj)).imp_right fun hx => ⟨hj, hx⟩
  have hlisted : listed.card ≤ xs.toFinset.card := by
    refine Finset.card_le_card_of_injOn f (fun j hj => ?_) fun i hi j hj h => ?_
    · exact List.mem_toFinset.2 (Finset.mem_filter.1 hj).2
    · exact hinj i (Finset.mem_range.1 (Finset.mem_filter.1 hi).1) j
        (Finset.mem_range.1 (Finset.mem_filter.1 hj).1) h
  have hcard := (Finset.card_le_card hcover).trans (Finset.card_union_le _ _)
  rw [Finset.card_range, Finset.card_range] at hcard
  have hxs := List.toFinset_card_le xs
  omega

section Bounds
variable {derive : DeriveAddress} {db : Database H} {account : ℕ} {xvk : Bytes}

theorem lt_afterHighest {r : AddressRow} (hr : r ∈ db.addresses.rows) :
    r.dindex < afterHighest db r.account r.scope := by
  have hmem : r.dindex ∈ (db.addressesOf r.account r.scope).map AddressRow.dindex :=
    List.mem_map.2 ⟨r, List.mem_filter.2 ⟨hr, by simp⟩, rfl⟩
  unfold afterHighest highestStoredDindex
  cases hmax : ((db.addressesOf r.account r.scope).map AddressRow.dindex).max? with
  | none =>
    rw [List.max?_eq_none_iff.1 hmax] at hmem
    exact absurd hmem List.not_mem_nil
  | some top =>
    have hle := (List.max?_eq_some_iff.1 hmax).2 _ hmem
    simp only [Option.map_some, Option.getD_some]
    omega

/-- Only indexes up to the highest stored one are stored, and they are all child indexes. -/
theorem afterHighest_le (hlaw : derive.Lawful xvk) (hrows : DerivedRows derive db account)
    (hkey : getTransparentKeys db account = some xvk) (scope : ℕ) :
    afterHighest db account scope ≤ 2 ^ 31 := by
  unfold afterHighest highestStoredDindex
  cases hmax : ((db.addressesOf account scope).map AddressRow.dindex).max? with
  | none => exact Nat.zero_le _
  | some top =>
    obtain ⟨r, hr, htop⟩ := List.mem_map.1 (List.max?_eq_some_iff.1 hmax).1
    obtain ⟨hr, hacc⟩ := List.mem_filter.1 hr
    have haddr := hrows xvk hkey r hr (of_decide_eq_true hacc).1
    have hlt := ((hlaw.defined r.scope r.dindex).1 (by rw [haddr]; rfl)).2
    simp only [Option.map_some, Option.getD_some]
    omega

theorem lt_afterHighest_of_used (hlaw : derive.Lawful xvk) (hrows : DerivedRows derive db account)
    (hkey : getTransparentKeys db account = some xvk) {j : ℕ} {address : Bytes}
    (hj : derive xvk 0 j = some address)
    (hused : db.transparentAddressIsUsed account address = true) :
    j < afterHighest db account 0 := by
  obtain ⟨r, hr, hrow⟩ := List.any_eq_true.1 hused
  obtain ⟨hacc, haddr, -⟩ := of_decide_eq_true hrow
  have hder := hrows xvk hkey r hr hacc
  rw [haddr] at hder
  obtain ⟨hscope, hindex⟩ := hlaw.injective _ _ _ _ _ hder hj
  have hlt := lt_afterHighest hr
  rwa [hacc, hscope, hindex] at hlt

end Bounds

/-! ### The search -/

section Found
variable {derive : DeriveAddress} {xvk : Bytes} {account last : ℕ} {excluded : List Bytes}
  {db : Database H}

def Taken (derive : DeriveAddress) (xvk : Bytes) (account : ℕ) (excluded : List Bytes)
    (db : Database H) (j : ℕ) : Prop :=
  ∃ address, derive xvk 0 j = some address ∧
    (address ∈ excluded ∨ db.transparentAddressIsUsed account address = true)

theorem searchUnused_found {pre post : List ℕ} {k : ℕ} {address : Bytes}
    (hpre : ∀ j ∈ pre, Taken derive xvk account excluded db j)
    (hk : derive xvk 0 k = some address) (hex : address ∉ excluded)
    (hunused : db.transparentAddressIsUsed account address = false) :
    ∃ certified gap, searchUnused derive xvk account last excluded db (pre ++ k :: post) =
      (.ok (some ⟨address, certified, gap⟩), db.storeAccountTransparentAddr account 0 k address) := by
  induction pre with
  | nil =>
    have hany : excluded.any (fun reserved => reserved = address) = false :=
      List.any_eq_false.2 fun x hx h => hex (of_decide_eq_true h ▸ hx)
    simp only [List.nil_append, searchUnused, hk, hany, hunused]
    exact ⟨_, _, rfl⟩
  | cons j pre ih =>
    obtain ⟨b, hb, htaken⟩ := hpre j List.mem_cons_self
    have hskip : (excluded.any (fun reserved => reserved = b) ||
        db.transparentAddressIsUsed account b) = true := by
      rw [Bool.or_eq_true]
      exact htaken.imp_left fun hmem => List.any_eq_true.2 ⟨b, hmem, decide_eq_true rfl⟩
    simp only [List.cons_append, searchUnused, hb, hskip, if_true]
    exact ih fun i hi => hpre i (List.mem_cons_of_mem j hi)

theorem taken_of_noUnused {js : List ℕ} {n : ℕ}
    (h : (searchUnused derive xvk account last excluded db js).1 =
      .error (.noUnusedAddress account n)) :
    ∀ j ∈ js, Taken derive xvk account excluded db j := by
  induction js with
  | nil => exact fun j hj => absurd hj List.not_mem_nil
  | cons j js ih =>
    rw [searchUnused] at h
    split at h
    · simp at h
    · rename_i address haddr
      split at h
      · rename_i hskip
        refine List.forall_mem_cons.2 ⟨⟨address, haddr, ?_⟩, ih h⟩
        rw [Bool.or_eq_true, List.any_eq_true] at hskip
        refine hskip.imp_left ?_
        rintro ⟨x, hx, heq⟩
        exact of_decide_eq_true heq ▸ hx
      · simp at h

theorem searchUnused_stored (js : List ℕ) :
    (searchUnused derive xvk account last excluded db js).2 = db ∨
      ∃ j address, derive xvk 0 j = some address ∧
        (searchUnused derive xvk account last excluded db js).2 =
          db.storeAccountTransparentAddr account 0 j address := by
  induction js with
  | nil => exact Or.inl rfl
  | cons j js ih =>
    rw [searchUnused]
    split
    · exact Or.inl rfl
    · rename_i address haddr
      split
      · exact ih
      · exact Or.inr ⟨j, address, haddr, rfl⟩

theorem le_of_taken (hlaw : derive.Lawful xvk) (hrows : DerivedRows derive db account)
    (hkey : getTransparentKeys db account = some xvk) {k : ℕ}
    (htaken : ∀ j < k, Taken derive xvk account excluded db j) :
    k ≤ afterHighest db account 0 + excluded.length := by
  have hcount := le_add_length_of_taken (fun j => derive xvk 0 j) (k := k)
    (n := afterHighest db account 0) (excluded.map some) (fun i hi j hj heq => ?_) fun j hj => ?_
  · rwa [List.length_map] at hcount
  · obtain ⟨a, ha, -⟩ := htaken i hi
    exact (hlaw.injective 0 i 0 j a ha (heq ▸ ha)).2
  · obtain ⟨a, ha, hmem | hused⟩ := htaken j hj
    · exact Or.inr (ha ▸ List.mem_map_of_mem hmem)
    · exact Or.inl (lt_afterHighest_of_used hlaw hrows hkey ha hused)

end Found

/-! ### Storing an address -/

section Stored
variable {derive : DeriveAddress} {db : Database H} {account scope dindex : ℕ} {address : Bytes}

theorem mem_stored {r : AddressRow} (hr : r ∈ db.addresses.rows) :
    r ∈ (db.storeAccountTransparentAddr account scope dindex address).addresses.rows :=
  Table.mem_insertOrIgnore.2 (Or.inl hr)

theorem stored_row {r : AddressRow}
    (hr : r ∈ (db.storeAccountTransparentAddr account scope dindex address).addresses.rows) :
    r ∈ db.addresses.rows ∨
      r.account = account ∧ r.scope = scope ∧ r.dindex = dindex ∧ r.address = address := by
  rcases Table.mem_insertOrIgnore.1 hr with hr | ⟨rfl, -⟩
  · exact Or.inl hr
  · exact Or.inr ⟨rfl, rfl, rfl, rfl⟩

theorem derivedRows_stored (hrows : DerivedRows derive db account) {xvk : Bytes}
    (hkey : getTransparentKeys db account = some xvk) (haddr : derive xvk scope dindex = some address) :
    DerivedRows derive (db.storeAccountTransparentAddr account scope dindex address) account := by
  intro xvk' hkey' r hr hacc
  have hsame : xvk = xvk' := Option.some.inj (hkey.symm.trans hkey')
  rcases stored_row hr with hr | ⟨-, hscope, hindex, heq⟩
  · exact hrows xvk' hkey' r hr hacc
  · rw [hscope, hindex, heq, ← hsame]
    exact haddr

theorem defaultTaddress_stored {a : ℕ} {shown : Bytes} (h : defaultTaddress db a = some shown) :
    defaultTaddress (db.storeAccountTransparentAddr account scope dindex address) a = some shown := by
  obtain ⟨row, hrow, hshown⟩ := Option.bind_eq_some_iff.1 h
  obtain ⟨found, hfound, hsnd⟩ := Option.map_eq_some_iff.1 hshown
  obtain ⟨r, hr, hkey, heq⟩ := transparentAddressRow_iff.1 hfound
  refine Option.bind_eq_some_iff.2 ⟨row, hrow, Option.map_eq_some_iff.2 ⟨found, ?_, hsnd⟩⟩
  exact transparentAddressRow_iff.2 ⟨r, mem_stored hr, hkey, heq⟩

end Stored

/-! ### The lowest free index -/

section Lowest
variable {derive : DeriveAddress} {db : Database H} {account : ℕ} {excluded : List Bytes}

theorem taken_of_notFree {xvk : Bytes} (hkey : getTransparentKeys db account = some xvk) {j : ℕ}
    (hder : (derive xvk 0 j).isSome = true)
    (hfree : j ∉ freeIndexes derive db account excluded) :
    Taken derive xvk account excluded db j := by
  obtain ⟨address, haddr⟩ := Option.isSome_iff_exists.1 hder
  have hreceive : receiveAddress derive db account j = some address := by
    simp [receiveAddress, hkey, haddr]
  by_contra htaken
  refine hfree ⟨by rw [hreceive]; rfl, ?_, ?_⟩
  · rintro ⟨a, ha, hused⟩
    obtain rfl := Option.some.inj (hreceive.symm.trans ha)
    exact htaken ⟨address, haddr, Or.inr hused⟩
  · rintro ⟨a, ha, hmem⟩
    obtain rfl := Option.some.inj (hreceive.symm.trans ha)
    exact htaken ⟨address, haddr, Or.inl hmem⟩

/-- The bound does not wrap. -/
theorem lastIndex_eq {xvk : Bytes} (hlaw : derive.Lawful xvk) (hrows : DerivedRows derive db account)
    (hkey : getTransparentKeys db account = some xvk) (hfits : excluded.length < 2 ^ 31) :
    u32 (u32 (afterHighest db account 0) + u32 excluded.length) =
      afterHighest db account 0 + excluded.length := by
  have hfirst := afterHighest_le hlaw hrows hkey 0
  unfold u32
  omega

theorem nextUnused_found {xvk : Bytes} (hlaw : derive.Lawful xvk)
    (hrows : DerivedRows derive db account) (hkey : getTransparentKeys db account = some xvk)
    (hfits : excluded.length < 2 ^ 31) {k : ℕ}
    (hk : IsLeast (freeIndexes derive db account excluded) k) :
    ∃ address certified gap, receiveAddress derive db account k = some address ∧
      (nextUnusedReceiveAddress derive db account excluded).1 =
        .ok (some ⟨address, certified, gap⟩) := by
  obtain ⟨⟨hsome, hunused, hnew⟩, hleast⟩ := hk
  obtain ⟨address, haddr⟩ := Option.isSome_iff_exists.1 hsome
  have hder : derive xvk 0 k = some address := by simpa [receiveAddress, hkey] using haddr
  have hchild := ((hlaw.defined 0 k).1 (by rw [hder]; rfl)).2
  have htaken : ∀ j < k, Taken derive xvk account excluded db j := fun j hj =>
    taken_of_notFree hkey ((hlaw.defined 0 j).2 ⟨by decide, by omega⟩)
      fun hfree => absurd (hleast hfree) (by omega)
  have hle := le_of_taken hlaw hrows hkey htaken
  obtain ⟨rest, hrest⟩ := Nat.exists_eq_add_of_le hle
  have hrange : List.range (afterHighest db account 0 + excluded.length + 1) =
      List.range k ++ k :: (List.range rest).map fun i => k + (i + 1) := by
    rw [hrest, Nat.add_assoc, List.range_add, List.range_succ_eq_map, List.map_cons, List.map_map]
    rfl
  obtain ⟨certified, gap, hfound⟩ := @searchUnused_found _ _ _ _ _
    (afterHighest db account 0 + excluded.length) _ _ _ ((List.range rest).map fun i => k + (i + 1)) _ _
    (fun j hj => htaken j (List.mem_range.1 hj)) hder (fun hmem => hnew ⟨address, haddr, hmem⟩)
    (Bool.eq_false_iff.2 fun hused => hunused ⟨address, haddr, hused⟩)
  refine ⟨address, certified, gap, haddr, ?_⟩
  unfold nextUnusedReceiveAddress
  rw [hkey]
  dsimp only
  rw [lastIndex_eq hlaw hrows hkey hfits, hrange, hfound]

theorem nextUnused_inRange {xvk : Bytes} (hlaw : derive.Lawful xvk)
    (hrows : DerivedRows derive db account) (hkey : getTransparentKeys db account = some xvk)
    (hfits : excluded.length < 2 ^ 31) (last : ℕ) :
    (nextUnusedReceiveAddress derive db account excluded).1 ≠
      .error (.noUnusedAddress account last) := by
  unfold nextUnusedReceiveAddress
  rw [hkey]
  dsimp only
  rw [lastIndex_eq hlaw hrows hkey hfits]
  intro herr
  -- one candidate too many would be taken
  have hle := le_of_taken hlaw hrows hkey (k := afterHighest db account 0 + excluded.length + 1)
    fun j hj => taken_of_noUnused herr j (List.mem_range.2 hj)
  omega

theorem nextUnused_stored (derive : DeriveAddress) (db : Database H) (account : ℕ)
    (excluded : List Bytes) :
    (nextUnusedReceiveAddress derive db account excluded).2 = db ∨
      ∃ xvk j address, getTransparentKeys db account = some xvk ∧ derive xvk 0 j = some address ∧
        (nextUnusedReceiveAddress derive db account excluded).2 =
          db.storeAccountTransparentAddr account 0 j address := by
  unfold nextUnusedReceiveAddress
  split
  · exact Or.inl rfl
  · rename_i xvk hkey
    refine (searchUnused_stored (List.range _)).imp_right ?_
    rintro ⟨j, address, haddr, heq⟩
    exact ⟨xvk, j, address, hkey, haddr, heq⟩

theorem derivedRows_nextUnused (hrows : DerivedRows derive db account) :
    DerivedRows derive (nextUnusedReceiveAddress derive db account excluded).2 account := by
  rcases nextUnused_stored derive db account excluded with heq | ⟨xvk, j, address, hkey, haddr, heq⟩
  · rwa [heq]
  · rw [heq]
    exact derivedRows_stored hrows hkey haddr

/-- The lowest receive address that is neither used nor handed out is found, whatever is stored,
    used and handed out, and the account keeps its own address. -/
theorem nextUnusedReceiveAddress_lowest {derive : DeriveAddress} (db : Database H) (account : ℕ)
    (hlaw : ∀ xvk, getTransparentKeys db account = some xvk → derive.Lawful xvk)
    (hrows : DerivedRows derive db account) (excluded : Excluded) :
    (∀ k, IsLeast (freeIndexes derive db account excluded.addresses) k →
      ∃ address certified gap, receiveAddress derive db account k = some address ∧
        (nextUnusedReceiveAddress derive db account excluded.addresses).1 =
          .ok (some ⟨address, certified, gap⟩)) ∧
    (∀ last, (nextUnusedReceiveAddress derive db account excluded.addresses).1 ≠
      .error (.noUnusedAddress account last)) ∧
    (nextUnusedReceiveAddress derive db account excluded.addresses).2.accounts = db.accounts ∧
    ∀ shown, defaultTaddress db account = some shown →
      defaultTaddress (nextUnusedReceiveAddress derive db account excluded.addresses).2 account =
        some shown := by
  refine ⟨fun k hk => ?_, fun last => ?_, ?_, fun shown hshown => ?_⟩
  · obtain ⟨xvk, hkey, -⟩ := Option.bind_eq_some_iff.1 (Option.isSome_iff_exists.1 hk.1.1).choose_spec
    exact nextUnused_found (hlaw xvk hkey) hrows hkey excluded.fits hk
  · cases hkey : getTransparentKeys db account with
    | none => simp [nextUnusedReceiveAddress, hkey]
    | some xvk => exact nextUnused_inRange (hlaw xvk hkey) hrows hkey excluded.fits last
  · rcases nextUnused_stored derive db account excluded.addresses with heq | ⟨_, _, _, _, _, heq⟩
    · rw [heq]
    · rw [heq]
      rfl
  · rcases nextUnused_stored derive db account excluded.addresses with heq | ⟨_, _, _, _, _, heq⟩
    · rwa [heq]
    · rw [heq]
      exact defaultTaddress_stored hshown

end Lowest

/-! ### A wallet used at 0, with 1 handed out and 2 stored -/

/-- Stands for the hash of a child key: scope and index in unary. -/
def sampleDerive : DeriveAddress := fun _ scope dindex =>
  if scope < 2 ^ 31 ∧ dindex < 2 ^ 31 then
    some (List.replicate scope 1 ++ 0 :: List.replicate dindex 1)
  else none

theorem unary_injective {scope i scope' j : ℕ}
    (h : List.replicate scope (1 : UInt8) ++ 0 :: List.replicate i 1 =
      List.replicate scope' 1 ++ 0 :: List.replicate j 1) : scope = scope' ∧ i = j := by
  induction scope generalizing scope' with
  | zero =>
    cases scope' with
    | zero => simpa using h
    | succ n => simp [List.replicate_succ] at h
  | succ m ih =>
    cases scope' with
    | zero => simp [List.replicate_succ] at h
    | succ n =>
      simp only [List.replicate_succ, List.cons_append, List.cons.injEq, true_and] at h
      exact (ih h).imp_left (congrArg Nat.succ)

theorem sampleDerive_lawful (xvk : Bytes) : sampleDerive.Lawful xvk where
  injective scope i scope' j address hi hj := by
    unfold sampleDerive at hi hj
    split at hi
    · split at hj
      · exact unary_injective (Option.some.inj (hi.trans hj.symm))
      · cases hj
    · cases hi
  defined scope i := by
    unfold sampleDerive
    split
    · rename_i hlt
      exact iff_of_true rfl hlt
    · rename_i hge
      exact iff_of_false (fun h => by cases h) hge

def sampleWallet : Database ℕ :=
  { Database.empty with
    accounts := ⟨[⟨1, none, 0, 0, 100, true, some [7], false, false⟩], by simp⟩
    addresses := ⟨[⟨1, 1, 0, 0, [0], none, true, none⟩, ⟨2, 1, 0, 2, [0, 1, 1], none, false, none⟩],
      by decide⟩ }

theorem sampleWallet_derived : DerivedRows sampleDerive sampleWallet 1 := by
  intro xvk hkey r hr hacc
  have hr' : r ∈ [(⟨1, 1, 0, 0, [0], none, true, none⟩ : AddressRow),
    ⟨2, 1, 0, 2, [0, 1, 1], none, false, none⟩] := hr
  rcases List.mem_cons.1 hr' with rfl | hr'
  · rfl
  · obtain rfl := List.mem_singleton.1 hr'
    rfl

theorem sampleWallet_lowest : ∃ certified gap,
    (nextUnusedReceiveAddress sampleDerive sampleWallet 1 [[0, 1]]).1 =
      .ok (some ⟨[0, 1, 1], certified, gap⟩) := by
  have hleast : IsLeast (freeIndexes sampleDerive sampleWallet 1 [[0, 1]]) 2 := by
    refine ⟨⟨rfl, ?_, ?_⟩, fun j hj => ?_⟩
    · rintro ⟨address, haddr, hused⟩
      obtain rfl := Option.some.inj haddr
      revert hused
      decide
    · rintro ⟨address, haddr, hmem⟩
      obtain rfl := Option.some.inj haddr
      revert hmem
      decide
    · by_contra hlt
      have hcases : j = 0 ∨ j = 1 := by omega
      rcases hcases with rfl | rfl
      · exact hj.2.1 ⟨[0], rfl, by decide⟩
      · exact hj.2.2 ⟨[0, 1], rfl, by decide⟩
  obtain ⟨address, certified, gap, haddr, hfound⟩ := (nextUnusedReceiveAddress_lowest sampleWallet 1
    (fun xvk _ => sampleDerive_lawful xvk) sampleWallet_derived ⟨[[0, 1]], by decide⟩).1 2 hleast
  obtain rfl := Option.some.inj haddr
  exact ⟨certified, gap, hfound⟩

end ZcashSdk.Account
