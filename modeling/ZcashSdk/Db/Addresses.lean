import ZcashSdk.Db.Schema

set_option autoImplicit false

/-!
# The transparent addresses a sync visits

The account's own address first, then its other receive addresses, then the newest
change addresses, older ones that still hold an unspent note and those that owe a
catch-up.
-/
namespace ZcashSdk.Db
open Tables Shielded

variable {H : Type} [DecidableEq H]

abbrev ScanRow := ℕ × Bytes × ℕ × ℕ

def AddressRow.scanRow (order : ℕ) (r : AddressRow) : ScanRow :=
  (r.idTaddress, r.address, order, r.dindex)

structure TransparentCoverage where
  certified : Bool
  gap : ℕ
  trim : ℕ
  deriving DecidableEq

namespace Database

def isSpent (db : Database H) (idNote : ℕ) : Bool :=
  db.spends.rows.any fun s => s.idNote = idNote

def isFunded (db : Database H) (r : AddressRow) : Bool :=
  db.notes.rows.any fun n => n.taddress = some r.idTaddress ∧ n.pool = 0 ∧ n.idAsset = none ∧
    db.isSpent n.idNote = false

def addressesOf (db : Database H) (account scope : ℕ) : List AddressRow :=
  db.addresses.rows.filter fun r => r.account = account ∧ r.scope = scope

def receiveRows (db : Database H) (account : ℕ) : List ScanRow :=
  (db.addressesOf account 0).map fun r =>
    r.scanRow (if (db.accountRow account).any (fun a => r.dindex = a.dindex) then 0 else 1)

/-- The newest `limit` change addresses. -/
def changeRows (db : Database H) (account limit : ℕ) : List AddressRow :=
  (((db.addressesOf account 1).insertionSort fun a b => b.dindex ≤ a.dindex)).take limit

/-- The order of the scan: `ORDER BY scan_order, dindex DESC`. -/
def scanLe (a b : ScanRow) : Prop :=
  a.2.2.1 < b.2.2.1 ∨ a.2.2.1 = b.2.2.1 ∧ b.2.2.2 ≤ a.2.2.2

instance : DecidableRel scanLe := fun _ _ => inferInstanceAs (Decidable (_ ∨ _))

def transparentAddressesToScan (db : Database H) (account limit : ℕ) : List (ℕ × Bytes) :=
  let change := db.addressesOf account 1
  let rows := db.receiveRows account ++
    (db.changeRows account limit).map (AddressRow.scanRow 2) ++
    (change.filter fun r => db.isFunded r).map (AddressRow.scanRow 2) ++
    (change.filter fun r => r.catchUpOwedThrough.isSome).map (AddressRow.scanRow 2)
  (rows.dedup.insertionSort scanLe).map fun r => (r.1, r.2.1)

/-! ### Addresses and their coverage -/

def storeAccountTransparentAddr (db : Database H) (account scope dindex : ℕ) (address : Bytes) :
    Database H :=
  { db with
    addresses := db.addresses.insertNewOrIgnore AddressRow.idTaddress
      fun i => ⟨i, account, scope, dindex, address, none, false, none⟩ }

/-- The stored address of an index, unambiguous by `UNIQUE(account, scope, dindex)`. -/
def transparentAddressRow (db : Database H) (account scope dindex : ℕ) : Option (ℕ × Bytes) :=
  (db.addresses.rows.find? fun r => r.account = account ∧ r.scope = scope ∧ r.dindex = dindex).map
    fun r => (r.idTaddress, r.address)

def highestStoredDindex (db : Database H) (account scope : ℕ) : Option ℕ :=
  ((db.addressesOf account scope).map AddressRow.dindex).max?

def transparentBackfilledHeight (db : Database H) (idTaddress : ℕ) : Option ℕ :=
  (db.addresses.rows.find? fun r => r.idTaddress = idTaddress).bind AddressRow.backfilledHeight

/-- A note was received or spent at the address, or a window once proved it used. -/
def transparentAddressIsUsed (db : Database H) (account : ℕ) (address : Bytes) : Bool :=
  db.addresses.rows.any fun r => r.account = account ∧ r.address = address ∧
    (r.seenUsed ∨
      (db.notes.rows.any fun n => n.pool = 0 ∧ n.account = r.account ∧
        n.taddress = some r.idTaddress) ∨
      db.spends.rows.any fun s => s.pool = 0 ∧ db.notes.rows.any fun n =>
        n.idNote = s.idNote ∧ n.account = s.account ∧ n.account = r.account ∧
          n.taddress = some r.idTaddress)

/-- The marker moves up only over heights that follow what it already covers. -/
def advanceBackfilledHeight (db : Database H) (account birth scope dindex coveredFrom through : ℕ) :
    Database H :=
  { db with
    addresses := db.addresses.update
      (fun r => if (r.account = account ∧ r.scope = scope ∧ r.dindex = dindex) ∧
          coveredFrom ≤ max ((r.backfilledHeight.map (· + 1)).getD 0) birth ∧
          (r.backfilledHeight.all fun m => m < through) then
        { r with backfilledHeight := some through } else r)
      (by intro a b; simp only [Row.Clash]; split <;> split <;> exact id) }

/-- Never lowered: only a marker that reaches it pays the debt. -/
def raiseCatchUpDebt (db : Database H) (idTaddress through : ℕ) : Database H :=
  { db with
    addresses := db.addresses.update
      (fun r => if r.idTaddress = idTaddress then
        { r with catchUpOwedThrough := some (max (r.catchUpOwedThrough.getD 0) through) } else r)
      (by intro a b; simp only [Row.Clash]; split <;> split <;> exact id) }

/-- A walk is certified under the trim counter it finished with; the gap is never lowered. -/
def writeTransparentCoverage (db : Database H) (account gap : ℕ) : Database H :=
  { db with
    certified := Function.update db.certified account
      (some (db.trimCounter account, max (((db.certified account).map Prod.snd).getD 0) gap)) }

/-- Nothing stored means that no walk ever completed. -/
def readTransparentCoverage (db : Database H) (account : ℕ) : TransparentCoverage :=
  match db.certified account with
  | some (stored, gap) => ⟨stored = db.trimCounter account, gap, db.trimCounter account⟩
  | none => ⟨false, 0, db.trimCounter account⟩

theorem transparentAddressRow_iff {db : Database H} {account scope j : ℕ} {row : ℕ × Bytes} :
    db.transparentAddressRow account scope j = some row ↔ ∃ r ∈ db.addresses.rows,
      (r.account = account ∧ r.scope = scope ∧ r.dindex = j) ∧ (r.idTaddress, r.address) = row := by
  unfold transparentAddressRow
  rw [Option.map_eq_some_iff]
  constructor
  · rintro ⟨r, hfind, rfl⟩
    have hkey := List.find?_some hfind
    rw [decide_eq_true_eq] at hkey
    exact ⟨r, List.mem_of_find?_eq_some hfind, hkey, rfl⟩
  · rintro ⟨r, hr, hkey, rfl⟩
    refine ⟨r, ?_, rfl⟩
    refine (db.addresses.find?_eq_some fun x hx y hy hpx hpy => ?_).2 ⟨hr, decide_eq_true hkey⟩
    simp only [decide_eq_true_eq] at hpx hpy
    exact db.addresses.eq_of_clash hx hy (Or.inr ⟨hpx.1.trans hpy.1.symm,
      hpx.2.1.trans hpy.2.1.symm, hpx.2.2.trans hpy.2.2.symm⟩)

/-- Receive addresses, and change addresses that owe something, are always visited. -/
theorem mem_transparentAddressesToScan {db : Database H} {account : ℕ} (limit : ℕ) {r : AddressRow}
    (hr : r ∈ db.addresses.rows) (hacc : r.account = account)
    (hs : r.scope = 0 ∨ r.scope = 1 ∧ r.catchUpOwedThrough.isSome = true) :
    (r.idTaddress, r.address) ∈ db.transparentAddressesToScan account limit := by
  simp only [transparentAddressesToScan, List.mem_map, List.mem_insertionSort, List.mem_dedup,
    List.mem_append]
  rcases hs with hs | ⟨hs, howed⟩
  · refine ⟨r.scanRow (if (db.accountRow account).any (fun a => r.dindex = a.dindex) then 0 else 1),
      Or.inl (Or.inl (Or.inl ?_)), rfl⟩
    exact List.mem_map.2 ⟨r, List.mem_filter.2 ⟨hr, by simp [hacc, hs]⟩, rfl⟩
  · refine ⟨r.scanRow 2, Or.inr ⟨r, List.mem_filter.2 ⟨?_, howed⟩, rfl⟩, rfl⟩
    exact List.mem_filter.2 ⟨hr, by simp [hacc, hs]⟩

end Database

end ZcashSdk.Db
