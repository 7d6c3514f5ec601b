import ZcashSdk.Wallet.Deletion
import ZcashSdk.Wallet.Ranges

set_option autoImplicit false

/-!
# From the birth of an account to the tip

The birth height is stored as if it had been synced, so a sync begins one block above it.
A transparent address that has a marker begins again at the birth height itself, as the
discovery of addresses does.
-/
namespace ZcashSdk.Wallet
open Tables Shielded Db Database

variable {H : Type} [DecidableEq H]

/-! ### New accounts -/

inductive KeyPart where
  | transparent (addresses : List (ℕ × Bytes))
  | sapling
  | orchard

def initPart (network : Network) (account birth : ℕ) (db : Database H) : KeyPart → Database H
  | .transparent addresses =>
    addresses.foldl (fun db x => db.storeAccountTransparentAddr account 0 x.1 x.2)
      (initAccountTransparent network db account birth)
  | .sapling => initAccountSapling network db account birth
  | .orchard => initAccountOrchard network db account birth

/-- An account created or restored from a key; without a birth height, from Sapling on. -/
def newAccount (network : Network) (db : Database H) (fingerprint : Option Bytes)
    (birth : Option ℕ) (parts : List KeyPart) : Database H :=
  let birth := birth.getD network.sapling
  parts.foldl (initPart network (newAccountId db) birth)
    (storeAccountMetadata db fingerprint birth)

/-! ### What a range scans -/

def shieldedPools (network : Network) (db : Database H) (account : ℕ) : List ℕ :=
  [1, 2, 3].filter fun pool => db.hasPool account pool ∧ pool < maxPool network

/-- The blocks that a range's shielded pass asks for; there are none before Sapling. -/
def shieldedRange (network : Network) (r : HeightRange) : ℕ × ℕ :=
  (max r.start network.sapling, max r.stop network.sapling)

def ScannedShielded (network : Network) (ranges : List HeightRange) (account block : ℕ) : Prop :=
  ∃ r ∈ ranges, account ∈ r.accounts ∧
    (shieldedRange network r).1 ≤ block ∧ block ≤ (shieldedRange network r).2

/-- Where the walk of an address begins: no history is older than the account. -/
def addressStart (birth start : ℕ) (marker : Option ℕ) : ℕ :=
  max (match marker with
    | none => start
    | some m => min start (m + 1)) birth

/-- The windows of a walk, which follow one another; a window that fails is halved. -/
inductive Windows : ℕ → ℕ → List (ℕ × ℕ) → Prop
  | done {lo stop : ℕ} : stop < lo → Windows lo stop []
  | window {lo hi stop : ℕ} {windows : List (ℕ × ℕ)} : lo ≤ hi → hi ≤ stop →
      Windows (hi + 1) stop windows → Windows lo stop ((lo, hi) :: windows)

/-- A window moves the marker when it follows what the marker covers. -/
def advanceMarker (birth : ℕ) (marker : Option ℕ) (window : ℕ × ℕ) : Option ℕ :=
  if window.1 ≤ max ((marker.map (· + 1)).getD 0) birth ∧ (marker.all fun m => m < window.2) then
    some window.2
  else marker

theorem advance_marker {db : Database H} {x : AddressRow} (hx : x ∈ db.addresses.rows)
    (birth lo hi : ℕ) :
    { x with backfilledHeight := advanceMarker birth x.backfilledHeight (lo, hi) } ∈
      (db.advanceBackfilledHeight x.account birth x.scope x.dindex lo hi).addresses.rows := by
  refine List.mem_map.2 ⟨x, hx, ?_⟩
  unfold advanceMarker
  simp only [and_self, true_and]
  split_ifs <;> rfl

/-- One address over the ranges of its account: each range walks below the seam and then above,
    and the windows of both move the marker. -/
inductive AddressWalk (birth : ℕ) : Option ℕ → List HeightRange → List (ℕ × ℕ) → Prop
  | done {marker : Option ℕ} : AddressWalk birth marker [] []
  | range {marker : Option ℕ} {r : HeightRange} {ranges : List HeightRange} {lo seam : ℕ}
      {below above windows : List (ℕ × ℕ)} : lo = addressStart birth r.start marker →
      (if lo ≤ seam then Windows lo seam below else below = []) →
      Windows (max lo ((seam + 1) % 2 ^ 32)) r.stop above →
      AddressWalk birth ((below ++ above).foldl (advanceMarker birth) marker) ranges windows →
      AddressWalk birth marker (r :: ranges) (below ++ above ++ windows)

/-- However its windows fall, an address is asked for every block from the birth height up to the tip. -/
def WalkCovers (birth tip : ℕ) (marker : Option ℕ) (ranges : List HeightRange) : Prop :=
  ∀ windows, AddressWalk birth marker ranges windows →
    ∀ block, birth ≤ block → block ≤ tip → ∃ w ∈ windows, w.1 ≤ block ∧ block ≤ w.2

def receiveMarkers (db : Database H) (account : ℕ) : List (Option ℕ) :=
  (db.addressesOf account 0).map AddressRow.backfilledHeight

/-- Every block from the birth height or the activation of the pool on, up to the tip, was
    scanned for each shielded pool and asked for each receive address. -/
structure BirthdayCovered (network : Network) (db : Database H) (accounts : List ℕ)
    (account birth tip : ℕ) (ranges : List HeightRange) : Prop where
  shielded : ∀ pool ∈ shieldedPools network db account, ∀ block,
    max birth (activationHeight network pool) ≤ block → block ≤ tip →
      ScannedShielded network ranges account block
  transparent : ∀ marker ∈ receiveMarkers (db.recoverFromPartialSync accounts).1 account,
    WalkCovers birth tip marker (ranges.filter fun r => account ∈ r.accounts)

/-! ### Walks -/

section Walks
variable {birth lo stop : ℕ} {windows : List (ℕ × ℕ)} {marker : Option ℕ} {r : HeightRange}
  {ranges : List HeightRange}

theorem Windows.cover (h : Windows lo stop windows) {n : ℕ} (hlo : lo ≤ n) (hstop : n ≤ stop) :
    ∃ w ∈ windows, w.1 ≤ n ∧ n ≤ w.2 := by
  induction h with
  | done hlt => omega
  | @window lo hi _ _ hle _ _ ih =>
    obtain hn | hn := le_or_gt n hi
    · exact ⟨(lo, hi), List.mem_cons_self, hlo, hn⟩
    · obtain ⟨w, hw, hcover⟩ := ih hn hstop
      exact ⟨w, List.mem_cons_of_mem _ hw, hcover⟩

theorem Windows.start_le (h : Windows lo stop windows) : ∀ w ∈ windows, lo ≤ w.1 := by
  induction h with
  | done => exact fun w hw => absurd hw List.not_mem_nil
  | window hle _ _ ih =>
    intro w hw
    obtain rfl | hw := List.mem_cons.1 hw
    · exact le_rfl
    · exact (Nat.le_succ_of_le hle).trans (ih w hw)

theorem Windows.exists (lo stop : ℕ) : ∃ windows, Windows lo stop windows := by
  obtain hle | hlt := le_or_gt lo stop
  · exact ⟨[(lo, stop)], .window hle le_rfl (.done (Nat.lt_succ_self _))⟩
  · exact ⟨[], .done hlt⟩

theorem AddressWalk.exists (birth : ℕ) : ∀ (ranges : List HeightRange) (marker : Option ℕ),
    ∃ windows, AddressWalk birth marker ranges windows
  | [], _ => ⟨[], .done⟩
  | r :: ranges, marker => by
    let lo := addressStart birth r.start marker
    obtain ⟨above, habove⟩ := Windows.exists (max lo ((0 + 1) % 2 ^ 32)) r.stop
    obtain ⟨below, hbelow⟩ : ∃ below, if lo ≤ 0 then Windows lo 0 below else below = [] := by
      split_ifs
      · exact Windows.exists lo 0
      · exact ⟨[], rfl⟩
    obtain ⟨windows, hwindows⟩ := AddressWalk.exists birth ranges
      ((below ++ above).foldl (advanceMarker birth) marker)
    exact ⟨_, .range rfl hbelow habove hwindows⟩

/-- Both walks of a range together ask for every block from the start to the stop. -/
theorem windows_cover {seam : ℕ} {below above : List (ℕ × ℕ)}
    (hbelow : if lo ≤ seam then Windows lo seam below else below = [])
    (habove : Windows (max lo ((seam + 1) % 2 ^ 32)) stop above) {n : ℕ} (hlo : lo ≤ n)
    (hstop : n ≤ stop) : ∃ w ∈ below ++ above, w.1 ≤ n ∧ n ≤ w.2 := by
  have hwrap : (seam + 1) % 2 ^ 32 ≤ seam + 1 := Nat.mod_le _ _
  split_ifs at hbelow with hseam
  · obtain hn | hn := le_or_gt n seam
    · obtain ⟨w, hw, hcover⟩ := hbelow.cover hlo hn
      exact ⟨w, List.mem_append_left _ hw, hcover⟩
    · obtain ⟨w, hw, hcover⟩ := habove.cover (by omega) hstop
      exact ⟨w, List.mem_append_right _ hw, hcover⟩
  · obtain ⟨w, hw, hcover⟩ := habove.cover (by omega) hstop
    exact ⟨w, List.mem_append_right _ hw, hcover⟩

theorem windows_start_le {seam : ℕ} {below above : List (ℕ × ℕ)}
    (hbelow : if lo ≤ seam then Windows lo seam below else below = [])
    (habove : Windows (max lo ((seam + 1) % 2 ^ 32)) stop above) :
    ∀ w ∈ below ++ above, lo ≤ w.1 := by
  intro w hw
  obtain hw | hw := List.mem_append.1 hw
  · split_ifs at hbelow
    · exact hbelow.start_le w hw
    · exact absurd (hbelow ▸ hw) List.not_mem_nil
  · exact (le_max_left _ _).trans (habove.start_le w hw)

/-- Above the birth height a marker that does not reach below it stays so. -/
def Late (birth : ℕ) (marker : Option ℕ) : Prop := ∀ m, marker = some m → birth ≤ m

theorem Late.advance (h : Late birth marker) {w : ℕ × ℕ} (hw : birth < w.1) :
    Late birth (advanceMarker birth marker w) := by
  unfold advanceMarker
  split_ifs with hadvance
  · obtain ⟨hle, hlt⟩ := hadvance
    cases marker with
    | none => exact absurd hle (by simp only [Option.map_none, Option.getD_none]; omega)
    | some m =>
      have hm := h m rfl
      have hlt : m < w.2 := of_decide_eq_true hlt
      rintro _ ⟨⟩
      omega
  · exact h

theorem Late.foldl (h : Late birth marker) (hw : ∀ w ∈ windows, birth < w.1) :
    Late birth (windows.foldl (advanceMarker birth) marker) := by
  induction windows generalizing marker with
  | nil => exact h
  | cons w windows ih =>
    exact ih (h.advance (hw w List.mem_cons_self)) fun v hv => hw v (List.mem_cons_of_mem _ hv)

theorem Late.lt_addressStart (h : Late birth marker) {start : ℕ} (hstart : birth < start) :
    birth < addressStart birth start marker := by
  unfold addressStart
  cases marker with
  | none => exact lt_max_of_lt_left hstart
  | some m =>
    have hm := h m rfl
    exact lt_max_of_lt_left (lt_min hstart (by omega))

/-- Where no range and no marker reaches down to the birth height, nothing there is asked. -/
theorem AddressWalk.above_birth (h : AddressWalk birth marker ranges windows)
    (hlate : Late birth marker) (hstart : ∀ r ∈ ranges, birth < r.start) :
    ∀ w ∈ windows, birth < w.1 := by
  induction h with
  | done => exact fun w hw => absurd hw List.not_mem_nil
  | @range marker r ranges lo seam below above windows hlo hbelow habove _ ih =>
    have hbirth : birth < lo := hlo ▸ hlate.lt_addressStart (hstart r List.mem_cons_self)
    have hfirst : ∀ w ∈ below ++ above, birth < w.1 :=
      fun w hw => hbirth.trans_le (windows_start_le hbelow habove w hw)
    intro w hw
    obtain hw | hw := List.mem_append.1 hw
    · exact hfirst w hw
    · exact ih (hlate.foldl hfirst) (fun s hs => hstart s (List.mem_cons_of_mem _ hs)) w hw

theorem addressStart_le (birth start : ℕ) (marker : Option ℕ) :
    addressStart birth start marker ≤ max start birth := by
  unfold addressStart
  cases marker with
  | none => exact le_rfl
  | some m => exact max_le_max_right _ (min_le_left _ _)

theorem AddressWalk.cover (h : AddressWalk birth marker ranges windows) (hr : r ∈ ranges) {n : ℕ}
    (hbirth : birth ≤ n) (hstart : r.start ≤ n) (hstop : n ≤ r.stop) :
    ∃ w ∈ windows, w.1 ≤ n ∧ n ≤ w.2 := by
  induction h with
  | done => exact absurd hr List.not_mem_nil
  | @range marker s ranges lo seam below above windows hlo hbelow habove _ ih =>
    obtain rfl | hr := List.mem_cons.1 hr
    · have hle : lo ≤ n := hlo ▸ (addressStart_le birth r.start marker).trans (max_le hstart hbirth)
      obtain ⟨w, hw, hcover⟩ := windows_cover hbelow habove hle hstop
      exact ⟨w, List.mem_append_left _ hw, hcover⟩
    · obtain ⟨w, hw, hcover⟩ := ih hr
      exact ⟨w, List.mem_append_right _ hw, hcover⟩

/-- A marker below the birth height sends the first range back to it. -/
theorem AddressWalk.cover_first (h : AddressWalk birth marker (r :: ranges) windows) {m : ℕ}
    (hmarker : marker = some m) (hm : m < birth) {n : ℕ} (hbirth : birth ≤ n)
    (hstop : n ≤ r.stop) : ∃ w ∈ windows, w.1 ≤ n ∧ n ≤ w.2 := by
  cases h with
  | range hlo hbelow habove _ =>
    subst hmarker
    have hle : addressStart birth r.start (some m) ≤ n := by
      unfold addressStart
      exact max_le ((min_le_right _ _).trans (by omega)) hbirth
    obtain ⟨w, hw, hcover⟩ := windows_cover hbelow habove (hlo.le.trans hle) hstop
    exact ⟨w, List.mem_append_left _ hw, hcover⟩

end Walks

/-! ### Where an account begins -/

structure Begun (network : Network) (account birth : ℕ) (db : Database H) : Prop where
  row : db.getBirthHeight account = some birth
  heights : ∀ r ∈ db.syncHeights.rows, r.account = account →
    r.height = max birth (activationHeight network r.pool)
  marked : ∀ marker ∈ receiveMarkers db account, marker = none ∨ marker = some 0

/-- An account is created or restored from a key, or reset to its birth height. -/
inductive Started (network : Network) : (account birth : ℕ) → Database H → Prop
  | created {db : Database H} {fingerprint : Option Bytes} {birth : Option ℕ}
      {parts : List KeyPart} : (∀ r ∈ db.syncHeights.rows, r.account ≠ newAccountId db) →
      (∀ x ∈ db.addresses.rows, x.account ≠ newAccountId db) →
      Started network (newAccountId db) (birth.getD network.sapling)
        (newAccount network db fingerprint birth parts)
  | reset {db db' : Database H} {account birth : ℕ} : HeightRows network db →
      db.getBirthHeight account = some birth → db.resetSync network account = .ok db' →
      Started network account birth db'

section Begin
variable {network : Network} {db : Database H} {account birth : ℕ}

theorem mem_receiveMarkers {marker : Option ℕ} :
    marker ∈ receiveMarkers db account ↔
      ∃ x ∈ db.addresses.rows, x.account = account ∧ x.scope = 0 ∧ x.backfilledHeight = marker := by
  simp only [receiveMarkers, addressesOf, List.mem_map, List.mem_filter, decide_eq_true_eq,
    and_assoc]

theorem accountRow_eq_some {r : AccountRow} :
    db.accountRow account = some r ↔ r ∈ db.accounts.rows ∧ r.idAccount = account := by
  unfold accountRow
  rw [Table.find?_eq_some, decide_eq_true_eq]
  intro a ha b hb hpa hpb
  exact db.accounts.eq_of_clash ha hb
    ((of_decide_eq_true hpa).trans (of_decide_eq_true hpb).symm)

theorem begun_metadata (fingerprint : Option Bytes)
    (hheights : ∀ r ∈ db.syncHeights.rows, r.account ≠ newAccountId db)
    (haddresses : ∀ x ∈ db.addresses.rows, x.account ≠ newAccountId db) :
    Begun network (newAccountId db) birth (storeAccountMetadata db fingerprint birth) where
  row := by
    have hrow : (storeAccountMetadata db fingerprint birth).accountRow (newAccountId db) =
        some ⟨newAccountId db, fingerprint, 0, 0, birth, false, none, false, false⟩ := by
      refine accountRow_eq_some.2 ⟨Table.mem_insertOrIgnore.2 (.inr ⟨rfl, ?_⟩), rfl⟩
      intro x hx heq
      have hid : x.idAccount = nextId (db.accounts.rows.map AccountRow.idAccount) := heq
      have hmem : x.idAccount ∈ db.accounts.rows.map AccountRow.idAccount := List.mem_map_of_mem hx
      exact nextId_not_mem _ (hid ▸ hmem)
    unfold getBirthHeight
    rw [hrow]
    rfl
  heights r hr hacc := absurd hacc (hheights r hr)
  marked marker hm := by
    obtain ⟨x, hx, hacc, -⟩ := mem_receiveMarkers.1 hm
    exact absurd hacc (haddresses x hx)

/-- Starting a pool keeps the birth height, for only the account's flags change. -/
theorem begun_initAccountPool (h : Begun network account birth db) (pool : ℕ)
    (f : AccountRow → AccountRow) (hf : ∀ r, (f r).idAccount = r.idAccount)
    (hbirth : ∀ r, (f r).birth = r.birth) :
    Begun network account birth (initAccountPool network db account pool birth f hf) where
  row := by
    obtain ⟨r, hr, hrb⟩ := Option.map_eq_some_iff.1 h.row
    obtain ⟨hmem, hid⟩ := accountRow_eq_some.1 hr
    have hrow : (initAccountPool network db account pool birth f hf).accountRow account =
        some (f r) := by
      refine accountRow_eq_some.2 ⟨List.mem_map.2 ⟨r, hmem, if_pos hid⟩, (hf r).trans hid⟩
    unfold getBirthHeight
    rw [hrow, Option.map_some, hbirth, hrb]
  heights r hr hacc := by
    obtain rfl | ⟨hr, -⟩ := Table.mem_insertOrReplace.1 hr
    · rfl
    · exact h.heights r hr hacc
  marked := h.marked

theorem begun_storeAddress (h : Begun network account birth db) (dindex : ℕ) (address : Bytes) :
    Begun network account birth (db.storeAccountTransparentAddr account 0 dindex address) where
  row := h.row
  heights := h.heights
  marked marker hm := by
    obtain ⟨x, hx, hacc, hscope, hmarker⟩ := mem_receiveMarkers.1 hm
    obtain hx | ⟨rfl, -⟩ := Table.mem_insertOrIgnore.1 hx
    · exact h.marked marker (mem_receiveMarkers.2 ⟨x, hx, hacc, hscope, hmarker⟩)
    · exact .inl hmarker.symm

theorem begun_storeAddresses (h : Begun network account birth db) (addresses : List (ℕ × Bytes)) :
    Begun network account birth
      (addresses.foldl (fun db x => db.storeAccountTransparentAddr account 0 x.1 x.2) db) := by
  induction addresses generalizing db with
  | nil => exact h
  | cons x addresses ih => exact ih (begun_storeAddress h x.1 x.2)

theorem begun_initPart (h : Begun network account birth db) (part : KeyPart) :
    Begun network account birth (initPart network account birth db part) := by
  cases part with
  | transparent addresses =>
    have hinit : Begun network account birth (initAccountTransparent network db account birth) :=
      begun_initAccountPool h 0 _ _ fun _ => rfl
    exact begun_storeAddresses hinit addresses
  | sapling => exact begun_initAccountPool h 1 _ _ fun _ => rfl
  | orchard => exact begun_initAccountPool h 2 _ _ fun _ => rfl

theorem begun_newAccount (fingerprint : Option Bytes) (birth : Option ℕ) (parts : List KeyPart)
    (hheights : ∀ r ∈ db.syncHeights.rows, r.account ≠ newAccountId db)
    (haddresses : ∀ x ∈ db.addresses.rows, x.account ≠ newAccountId db) :
    Begun network (newAccountId db) (birth.getD network.sapling)
      (newAccount network db fingerprint birth parts) := by
  have hmeta : Begun network (newAccountId db) (birth.getD network.sapling)
      (storeAccountMetadata db fingerprint (birth.getD network.sapling)) :=
    begun_metadata fingerprint hheights haddresses
  change Begun _ _ _ (parts.foldl _ _)
  generalize storeAccountMetadata db fingerprint (birth.getD network.sapling) = d at hmeta ⊢
  induction parts generalizing d with
  | nil => exact hmeta
  | cons part parts ih => exact ih _ (begun_initPart hmeta part)

theorem receiveMarkers_map {rows : List AddressRow} {f : AddressRow → AddressRow}
    {g : Option ℕ → Option ℕ} (hacc : ∀ x, (f x).account = x.account)
    (hscope : ∀ x, (f x).scope = x.scope)
    (hmarker : ∀ x, x.account = account → (f x).backfilledHeight = g x.backfilledHeight) :
    ((rows.map f).filter fun r => r.account = account ∧ r.scope = 0).map
        AddressRow.backfilledHeight =
      ((rows.filter fun r => r.account = account ∧ r.scope = 0).map
        AddressRow.backfilledHeight).map g := by
  rw [List.filter_map, List.map_map, List.map_map]
  have hsame : ((fun r : AddressRow => decide (r.account = account ∧ r.scope = 0)) ∘ f) =
      fun r => decide (r.account = account ∧ r.scope = 0) := by
    funext x
    simp only [Function.comp_apply, hacc, hscope]
  rw [hsame]
  refine List.map_congr_left fun x hx => hmarker x ?_
  exact (of_decide_eq_true (List.mem_filter.1 hx).2).1

theorem receiveMarkers_trim (db : Database H) (a height : ℕ) :
    receiveMarkers (db.trimSyncData a height) account = (receiveMarkers db account).map
      (if account = a then Option.map (min height) else id) := by
  have hreOwe : ∀ x, (db.reOwe a height x).account = x.account ∧
      (db.reOwe a height x).scope = x.scope ∧
      (db.reOwe a height x).backfilledHeight = x.backfilledHeight := by
    intro x
    unfold reOwe
    split <;> exact ⟨rfl, rfl, rfl⟩
  have hclamp : ∀ x, (clampMarker a height x).account = x.account ∧
      (clampMarker a height x).scope = x.scope := by
    intro x
    unfold clampMarker
    split <;> exact ⟨rfl, rfl⟩
  have hrows : (db.trimSyncData a height).addresses.rows =
      db.addresses.rows.map fun x => clampMarker a height (db.reOwe a height x) :=
    List.map_map
  unfold receiveMarkers addressesOf
  rw [hrows]
  refine receiveMarkers_map (fun x => (hclamp _).1.trans (hreOwe x).1)
    (fun x => (hclamp _).2.trans (hreOwe x).2.1) fun x hx => ?_
  obtain ⟨hacc, -, hmarker⟩ := hreOwe x
  rw [← hmarker]
  unfold clampMarker
  rw [hacc, hx]
  by_cases ha : account = a
  · rw [if_pos ha]
    cases hm : (db.reOwe a height x).backfilledHeight with
    | none => simp [hm]
    | some m =>
      simp only [ha, true_and, Option.any_some, decide_eq_true_eq, Option.map_some]
      split_ifs with hlt
      · rw [min_eq_left hlt.le]
      · rw [hm, min_eq_right (by omega)]
  · rw [if_neg ha, if_neg (fun h => ha h.1)]
    rfl

theorem receiveMarkers_clear (db : Database H) (a : ℕ) :
    receiveMarkers (db.clearCatchUpDebts a) account = receiveMarkers db account := by
  refine (receiveMarkers_map (g := id) (fun x => ?_) (fun x => ?_) fun x _ => ?_).trans
    (List.map_id _) <;> split <;> rfl

theorem lt_maxPool (hrows : HeightRows network db) {r : SyncHeightRow}
    (hr : r ∈ db.syncHeights.rows) : r.pool < maxPool network := by
  have hmax : 3 ≤ maxPool network := by
    unfold maxPool
    split_ifs <;> omega
  by_cases hzero : r.pool = 0
  · omega
  · obtain ⟨hpool, hthree⟩ := hrows.pool r hr hzero
    unfold hasPool at hpool
    split at hpool
    · omega
    · omega
    · omega
    · rename_i heq
      unfold maxPool
      rw [if_pos (hthree heq)]
      omega
    · cases hpool

theorem begun_resetSync {db' : Database H} (hrows : HeightRows network db)
    (hbirth : db.getBirthHeight account = some birth)
    (hreset : db.resetSync network account = .ok db') : Begun network account birth db' := by
  unfold resetSync at hreset
  rw [hbirth] at hreset
  obtain rfl := Except.ok.inj hreset
  refine ⟨hbirth, ?_, ?_⟩
  · intro r hr hacc
    obtain ⟨q, hq, rfl⟩ := List.mem_map.1 hr
    have hpool : q.account = account → q.pool < maxPool network := by
      intro hqa
      obtain ⟨hne, -⟩ | ⟨-, p, hp, -, -, heq⟩ := mem_trim_heights.1 hq
      · exact absurd hqa hne
      · rw [heq]
        exact lt_maxPool hrows hp
    split_ifs at hacc ⊢ with hsel
    · rfl
    · exact absurd ⟨hacc, hpool hacc⟩ hsel
  · intro marker hm
    change marker ∈ receiveMarkers ((db.trimSyncData account 0).clearCatchUpDebts account) account at hm
    rw [receiveMarkers_clear, receiveMarkers_trim, if_pos rfl] at hm
    obtain ⟨m, -, rfl⟩ := List.mem_map.1 hm
    cases m with
    | none => exact .inl rfl
    | some m => exact .inr (congrArg some (Nat.zero_min m))

theorem Started.begun (h : Started network account birth db) : Begun network account birth db := by
  cases h with
  | created hheights haddresses => exact begun_newAccount _ _ _ hheights haddresses
  | reset hrows hbirth hreset => exact begun_resetSync hrows hbirth hreset

theorem receiveMarkers_recover {accounts : List ℕ}
    (h : ∀ marker ∈ receiveMarkers db account, marker = none ∨ marker = some 0) :
    receiveMarkers (db.recoverFromPartialSync accounts).1 account = receiveMarkers db account := by
  induction accounts generalizing db with
  | nil => rfl
  | cons a accounts ih =>
    unfold recoverFromPartialSync
    cases db.accountSeam a with
    | none => rfl
    | some S =>
      have hsame : receiveMarkers (db.trimSyncData a S) account = receiveMarkers db account := by
        rw [receiveMarkers_trim]
        refine (List.map_congr_left fun marker hm => ?_).trans (List.map_id _)
        split_ifs
        · obtain rfl | rfl := h marker hm
          · rfl
          · exact congrArg some (Nat.min_zero S)
        · rfl
      exact (ih (hsame ▸ h)).trans hsame

end Begin

/-! ### What a cycle covers -/

section Cover
variable {accounts : List ℕ} {seam : ℕ → ℕ} {account tip stop block : ℕ}
  {ranges : List HeightRange}

/-- Where no other account is ahead of the chain, an account is scanned up to the tip or not
    at all. -/
theorem PlansTo.own_stop (h : PlansTo accounts seam tip stop ranges)
    (hmem : account ∈ accounts)
    (hchain : ∀ a ∈ accounts, a ≠ account → seam a ≤ tip) :
    nextOf (seam account) ≤ tip ∧ stop = tip ∨
      tip < nextOf (seam account) ∧ stop < nextOf (seam account) := by
  obtain ⟨last, hlast, hmax, hstop⟩ := h.stop_eq
  have hle := hmax account hmem
  have hother : last ≠ account → nextOf (seam last) ≤ tip + 1 := by
    intro hne
    exact (Nat.mod_le _ _).trans (Nat.succ_le_succ (hchain last hlast hne))
  by_cases heq : last = account
  · subst heq
    split_ifs at hstop <;> omega
  · have hnext := hother heq
    split_ifs at hstop <;> omega

theorem PlansTo.covered (h : PlansTo accounts seam tip stop ranges) (hmem : account ∈ accounts)
    (hnext : nextOf (seam account) ≤ block) (hstop : block ≤ stop) :
    ∃ r ∈ ranges, account ∈ r.accounts ∧ r.start ≤ block ∧ block ≤ r.stop := by
  have htimes := h.times account hmem block
  rw [if_pos ⟨hnext, hstop⟩] at htimes
  obtain ⟨r, hr, hscan⟩ := List.countP_pos_iff.1 (htimes ▸ Nat.one_pos)
  exact ⟨r, hr, of_decide_eq_true hscan⟩

theorem PlansTo.own_start (h : PlansTo accounts seam tip stop ranges) (hmem : account ∈ accounts)
    {r : HeightRange} (hr : r ∈ ranges) (hown : account ∈ r.accounts) :
    nextOf (seam account) ≤ r.start ∧ r.start ≤ stop := by
  have hle := (h.bounds r hr).2.1
  by_contra hnot
  have htimes := h.times account hmem r.start
  rw [if_neg hnot] at htimes
  exact List.countP_eq_zero.1 htimes r hr (decide_eq_true ⟨hown, le_rfl, hle⟩)

theorem PlansTo.scannedShielded_iff (h : PlansTo accounts seam tip stop ranges)
    (network : Network) (hmem : account ∈ accounts)
    (hchain : ∀ a ∈ accounts, a ≠ account → seam a ≤ tip) (hblock : block ≤ tip) :
    ScannedShielded network ranges account block ↔
      max (nextOf (seam account)) network.sapling ≤ block := by
  constructor
  · rintro ⟨r, hr, hown, hlo, -⟩
    exact (max_le_max_right _ (h.own_start hmem hr hown).1).trans hlo
  · intro hle
    have hnext := (le_max_left _ _).trans hle
    obtain ⟨-, rfl⟩ | ⟨hlt, -⟩ := h.own_stop hmem hchain
    · obtain ⟨r, hr, hown, hlo, hhi⟩ := h.covered hmem hnext hblock
      exact ⟨r, hr, hown, max_le hlo ((le_max_right _ _).trans hle), hhi.trans (le_max_left _ _)⟩
    · exact absurd (hnext.trans hblock) (Nat.not_le.2 hlt)

theorem PlansTo.walkCovers_iff (h : PlansTo accounts seam tip stop ranges)
    (hmem : account ∈ accounts)
    (hchain : ∀ a ∈ accounts, a ≠ account → seam a ≤ tip) (birth : ℕ) (marker : Option ℕ) :
    WalkCovers birth tip marker (ranges.filter fun r => account ∈ r.accounts) ↔
      tip < birth ∨ nextOf (seam account) ≤ tip ∧
        (nextOf (seam account) ≤ birth ∨ ∃ m, marker = some m ∧ m < birth) := by
  have hown : ∀ r, r ∈ ranges.filter (fun r => decide (account ∈ r.accounts)) ↔
      r ∈ ranges ∧ account ∈ r.accounts := by
    simp only [List.mem_filter, decide_eq_true_eq, implies_true]
  have hstop := h.own_stop hmem hchain
  constructor
  · intro hcovers
    by_contra hnot
    push Not at hnot
    obtain ⟨hbirth, hnot⟩ := hnot
    obtain ⟨windows, hwalk⟩ := AddressWalk.exists birth
      (ranges.filter fun r => decide (account ∈ r.accounts)) marker
    obtain ⟨w, hw, hlo, -⟩ := hcovers windows hwalk birth le_rfl hbirth
    obtain ⟨hnext, -⟩ | ⟨hnext, hbelow⟩ := hstop
    · -- nothing begins at the birth height
      obtain ⟨hlt, hlate⟩ := hnot hnext
      have habove := hwalk.above_birth hlate fun r hr =>
        hlt.trans_le (h.own_start hmem ((hown r).1 hr).1 ((hown r).1 hr).2).1
      exact absurd hlo (Nat.not_le.2 (habove w hw))
    · -- there is no range
      have hnone : ranges.filter (fun r => decide (account ∈ r.accounts)) = [] := by
        refine List.eq_nil_iff_forall_not_mem.2 fun r hr => ?_
        have hstart := h.own_start hmem ((hown r).1 hr).1 ((hown r).1 hr).2
        omega
      rw [hnone] at hwalk
      cases hwalk
      exact absurd hw List.not_mem_nil
  · rintro (hlt | ⟨hnext, hcond⟩) windows hwalk block hbirth hblock
    · omega
    obtain ⟨-, rfl⟩ | ⟨hlt, -⟩ := hstop
    · obtain hle | hlt := le_or_gt (nextOf (seam account)) block
      · obtain ⟨r, hr, hmemr, hlo, hhi⟩ := h.covered hmem hle hblock
        exact hwalk.cover ((hown r).2 ⟨hr, hmemr⟩) hbirth hlo hhi
      · -- below the next height only the first range reaches
        obtain hle | ⟨m, hmarker, hm⟩ := hcond
        · omega
        obtain ⟨r, hr, hmemr, -⟩ := h.covered hmem le_rfl hnext
        obtain ⟨first, rest, hsplit⟩ := List.exists_cons_of_ne_nil
          (List.ne_nil_of_mem ((hown r).2 ⟨hr, hmemr⟩))
        rw [hsplit] at hwalk
        have hfirst := (hown first).1 (hsplit ▸ List.mem_cons_self)
        have hstart := (h.own_start hmem hfirst.1 hfirst.2).1
        have hbounds := (h.bounds first hfirst.1).2.1
        exact hwalk.cover_first hmarker hm hbirth (by omega)
    · omega

end Cover

/-- A cycle covers an account from its birth where each shielded pool begins above the block
    the cycle begins at, and each address has a marker below the birth height. -/
theorem birthday_covered_iff (network : Network) {db : Database H} {account birth : ℕ}
    (hstart : Started network account birth db) (tip : ℕ) {accounts : List ℕ} {seam : ℕ → ℕ}
    (hstored : Stored db accounts seam) (hmem : account ∈ accounts)
    (hchain : ∀ a ∈ accounts, a ≠ account → seam a ≤ tip) :
    (∃ ranges, syncHeightRanges db accounts tip = .ok ranges ∧
      BirthdayCovered network db accounts account birth tip ranges) ↔
      (∀ pool ∈ shieldedPools network db account,
        tip < max birth (activationHeight network pool) ∨
          max (nextOf (seam account)) network.sapling ≤ max birth (activationHeight network pool)) ∧
      ∀ marker ∈ receiveMarkers db account, tip < birth ∨ nextOf (seam account) ≤ tip ∧
        (nextOf (seam account) ≤ birth ∨ ∃ m, marker = some m ∧ m < birth) := by
  obtain ⟨ranges, stop, hranges, hplan⟩ :=
    syncHeightRanges_plansTo hstored (List.ne_nil_of_mem hmem) tip
  have hmarkers : receiveMarkers (db.recoverFromPartialSync accounts).1 account =
      receiveMarkers db account := receiveMarkers_recover hstart.begun.marked
  have hcovered : BirthdayCovered network db accounts account birth tip ranges ↔ _ ∧ _ :=
    ⟨fun h => ⟨h.shielded, h.transparent⟩, fun h => ⟨h.1, h.2⟩⟩
  have hone : (∃ found, syncHeightRanges db accounts tip = .ok found ∧
      BirthdayCovered network db accounts account birth tip found) ↔
      BirthdayCovered network db accounts account birth tip ranges := by
    constructor
    · rintro ⟨found, hfound, h⟩
      rwa [Except.ok.inj (hranges.symm.trans hfound)]
    · exact fun h => ⟨ranges, hranges, h⟩
  rw [hone, hcovered, hmarkers]
  refine and_congr (forall₂_congr fun pool _ => ?_) (forall₂_congr fun marker _ => ?_)
  · constructor
    · intro h
      obtain hlt | hle := lt_or_ge tip (max birth (activationHeight network pool))
      · exact .inl hlt
      · exact .inr ((hplan.scannedShielded_iff network hmem hchain hle).1 (h _ le_rfl hle))
    · rintro (hlt | hle) block hlo hhi
      · omega
      · exact (hplan.scannedShielded_iff network hmem hchain hhi).2 (hle.trans hlo)
  · exact hplan.walkCovers_iff hmem hchain birth marker

def lateSapling : Network := ⟨100, 200, none⟩

/-- An account born below Sapling whose address was walked before. -/
def walkedAccount : Database ℕ :=
  { Database.empty with
    accounts := ⟨[{ keylessAccount 1 with birth := 50, sapling := true }],
      List.pairwise_singleton _ _⟩
    syncHeights := ⟨[⟨1, 0, 400⟩, ⟨1, 1, 400⟩], by decide⟩
    addresses := ⟨[⟨1, 1, 0, 0, [1], some 400, true, none⟩], List.pairwise_singleton _ _⟩ }

theorem walkedAccount_covered : ∃ db, walkedAccount.resetSync lateSapling 1 = .ok db ∧
    ∃ ranges, syncHeightRanges db [1] 500 = .ok ranges ∧
      BirthdayCovered lateSapling db [1] 1 50 500 ranges := by
  have hrows : HeightRows lateSapling walkedAccount := by
    refine ⟨by decide, ?_, by decide⟩
    intro a p hp hpool
    by_cases ha : a = 1
    · subst ha
      obtain rfl | rfl := hp
      · decide
      · cases hpool
    · have hnone : walkedAccount.accountRow a = none :=
        List.find?_eq_none.2 fun r hr => by
          obtain rfl := List.mem_singleton.1 hr
          simp [keylessAccount, Ne.symm ha]
      unfold hasPool at hpool
      rw [hnone] at hpool
      cases hpool
  refine ⟨_, rfl, ?_⟩
  exact (birthday_covered_iff lateSapling (.reset hrows rfl rfl) 500
    (show Stored _ [1] fun _ => 50 by unfold Stored; decide) List.mem_cons_self (by decide)).2 (by decide)

/-- A wallet restored with the birth height 300 is scanned from 301 on. -/
theorem restored_not_covered :
    let db : Database ℕ := newAccount lateSapling .empty none (some 300)
      [.transparent [(0, [1])], .sapling]
    syncHeightRanges db [1] 310 = .ok [⟨301, 310, [1]⟩] ∧
      ¬ BirthdayCovered lateSapling db [1] 1 300 310 [⟨301, 310, [1]⟩] := by
  refine ⟨by rfl, fun h => ?_⟩
  obtain ⟨r, hr, -, hlo, -⟩ := h.shielded 1 (by decide) 300 (by decide) (by decide)
  obtain rfl := List.mem_singleton.1 hr
  exact absurd hlo (by decide)

end ZcashSdk.Wallet
