import ZcashSdk.Lib.Effects
import ZcashSdk.Lib.Table
import ZcashSdk.Shielded.Types

set_option autoImplicit false

/-!
# Edits of the contacts

A contact is kept with the receivers of its addresses. Each edit is a sequence of statements,
none of which is undone when a later one fails.
-/
namespace ZcashSdk.Contacts
open Tables Effects
open Shielded (Bytes Fault)

/-! ### Addresses -/

inductive NetworkType where
  | main | test | regtest
  deriving DecidableEq

inductive Receiver where
  | p2pkh (pkh : Bytes)
  | p2sh (sh : Bytes)
  | sapling (data : Bytes)
  | orchard (data : Bytes)
  | unknown

inductive Pool where
  | transparent | sapling | orchard

def Pool.toNat : Pool → ℕ
  | transparent => 0
  | sapling => 1
  | orchard => 2

structure AddressLib where
  ZAddress : Type
  decodeUnified : String → Option (NetworkType × List Receiver)
  encodeP2pkh : NetworkType → Bytes → String
  encodeP2sh : NetworkType → Bytes → String
  /-- Not all bytes are a receiver. -/
  encodeSapling : NetworkType → Bytes → Option String
  encodeOrchard : NetworkType → Bytes → Option String
  tryFromEncoded : String → Except String ZAddress
  canReceiveAs : ZAddress → Pool → Bool

def unwrap {α : Type} : Option α → Except Fault α
  | some a => .ok a
  | none => .error (.panic "called `Option::unwrap()` on a `None` value")

def expandReceiver (lib : AddressLib) (network : NetworkType) :
    Receiver → Except Fault (List (String × ℕ))
  | .p2pkh pkh => .ok [(lib.encodeP2pkh network pkh, 0)]
  | .p2sh sh => .ok [(lib.encodeP2sh network sh, 0)]
  | .sapling data => do
    let s ← unwrap (lib.encodeSapling network data)
    .ok [(s, 1)]
  | .orchard data => do
    let s ← unwrap (lib.encodeOrchard network data)
    .ok [(s, 2)]
  | .unknown => .ok []

def expandAddressToReceiversWithPool (lib : AddressLib) (network : NetworkType) (addr : String) :
    Except Fault (List (String × ℕ)) :=
  match lib.decodeUnified addr with
  | some (net, items) =>
    if net ≠ network then .error (.error "Invalid network for address")
    else do
      let results ← items.mapM (expandReceiver lib network)
      if results.flatten = [] then .error (.error "Address has no recognizable receivers")
      else .ok results.flatten
  | none =>
    match lib.tryFromEncoded addr with
    | .error e => .error (.error s!"Invalid address: {e}")
    | .ok zaddr =>
      if lib.canReceiveAs zaddr .transparent then .ok [(addr, 0)]
      else if lib.canReceiveAs zaddr .sapling then .ok [(addr, 1)]
      else if lib.canReceiveAs zaddr .orchard then .ok [(addr, 2)]
      else .error (.error "Unrecognized address pool")

/-! ### Tables -/

structure ContactRow where
  idContact : ℕ
  name : String
  notes : String
  deriving DecidableEq

structure ContactAddressRow where
  idAddress : ℕ
  contactId : ℕ
  address : String
  receiver : String
  pool : ℕ
  ordinal : ℕ
  deriving DecidableEq

instance : Row ContactRow where
  Clash a b := a.idContact = b.idContact ∨ a.name = b.name
  clash_refl _ := Or.inl rfl
  clash_symm h := h.imp Eq.symm Eq.symm
  decClash _ _ := inferInstanceAs (Decidable (_ ∨ _))

instance : Row ContactAddressRow where
  Clash a b := a.idAddress = b.idAddress
  clash_refl _ := rfl
  clash_symm h := h.symm
  decClash _ _ := inferInstanceAs (Decidable (_ = _))

structure Database where
  contacts : Table ContactRow
  addresses : Table ContactAddressRow
  owned : ∀ a ∈ addresses.rows, ∃ c ∈ contacts.rows, c.idContact = a.contactId

abbrev Edit (α : Type) := Prog Database Fault α

theorem Database.ext_tables {a b : Database} (hc : a.contacts = b.contacts)
    (ha : a.addresses = b.addresses) : a = b := by
  cases a
  cases b
  simp only at hc ha
  subst hc ha
  rfl

def ContactStored (db : Database) (id : ℕ) : Prop := ∃ c ∈ db.contacts.rows, c.idContact = id

instance (db : Database) (id : ℕ) : Decidable (ContactStored db id) :=
  inferInstanceAs (Decidable (∃ c ∈ db.contacts.rows, c.idContact = id))

/-! ### Statements -/

def newContact (db : Database) (name notes : String) : ContactRow :=
  ⟨nextId (db.contacts.rows.map ContactRow.idContact), name, notes⟩

def insertContact (name notes : String) (db : Database) : Except Fault Database :=
  match h : db.contacts.insert? (newContact db name notes) with
  | none => .error (.error "UNIQUE constraint failed: contacts.name")
  | some contacts => .ok
    { db with
      contacts
      owned := by
        intro a ha
        obtain ⟨c, hc, hid⟩ := db.owned a ha
        exact ⟨c, by rw [(Table.insert?_eq_some.1 h).2]; exact List.mem_append_left _ hc, hid⟩ }

/-- No other contact may have the name; nothing is done where there is no such contact. -/
def setName (id : ℕ) (name : String) (db : Database) : Except Fault Database :=
  if h : ContactStored db id ∧ ∃ c ∈ db.contacts.rows, c.idContact ≠ id ∧ c.name = name then
    .error (.error "UNIQUE constraint failed: contacts.name")
  else .ok
    { db with
      contacts := ⟨db.contacts.rows.map fun c => if c.idContact = id then { c with name } else c, by
        refine List.pairwise_map.2 (db.contacts.apart.imp_of_mem ?_)
        intro a b ha hb hn hc
        by_cases hai : a.idContact = id <;> by_cases hbi : b.idContact = id
        · exact hn (Or.inl (hai.trans hbi.symm))
        · rw [if_pos hai, if_neg hbi] at hc
          rcases hc with hc | hc
          · exact hn (Or.inl hc)
          · exact h ⟨⟨a, ha, hai⟩, b, hb, hbi, hc.symm⟩
        · rw [if_neg hai, if_pos hbi] at hc
          rcases hc with hc | hc
          · exact hn (Or.inl hc)
          · exact h ⟨⟨b, hb, hbi⟩, a, ha, hai, hc⟩
        · rw [if_neg hai, if_neg hbi] at hc
          exact hn hc⟩
      owned := by
        intro a ha
        obtain ⟨c, hc, hid⟩ := db.owned a ha
        refine ⟨_, List.mem_map_of_mem hc, ?_⟩
        split <;> exact hid }

def setNotes (id : ℕ) (notes : String) (db : Database) : Except Fault Database :=
  .ok
    { db with
      contacts := db.contacts.update (fun c => if c.idContact = id then { c with notes } else c) (by
        intro a b
        simp only [Row.Clash]
        split <;> split <;> exact fun h => h)
      owned := by
        intro a ha
        obtain ⟨c, hc, hid⟩ := db.owned a ha
        refine ⟨_, List.mem_map_of_mem hc, ?_⟩
        split <;> exact hid }

def deleteAddresses (id : ℕ) (db : Database) : Except Fault Database :=
  .ok
    { db with
      addresses := db.addresses.deleteWhere fun a => decide (a.contactId = id)
      owned := fun a ha => db.owned a (Table.mem_deleteWhere.1 ha).1 }

/-- A new row always has a number of its own. -/
def appendNew (t : Table ContactAddressRow) (mk : ℕ → ContactAddressRow) :
    Table ContactAddressRow := t.insertNewOrIgnore ContactAddressRow.idAddress mk

def addressRow (id : ℕ) (address : String) (ordinal : ℕ) (expanded : String × ℕ) (i : ℕ) :
    ContactAddressRow := ⟨i, id, address, expanded.1, expanded.2, Shielded.u32 ordinal⟩

def insertAddress (id : ℕ) (address : String) (ordinal : ℕ) (expanded : String × ℕ)
    (db : Database) : Except Fault Database :=
  if h : ContactStored db id then .ok
    { db with
      addresses := appendNew db.addresses (addressRow id address ordinal expanded)
      owned := by
        intro a ha
        rcases Table.mem_insertOrIgnore.1 ha with ha | ⟨rfl, -⟩
        · exact db.owned a ha
        · exact h }
  else .error (.error "FOREIGN KEY constraint failed")

/-! ### Edits -/

structure Contact where
  id : ℕ
  name : String
  addresses : List String
  notes : String

/-- `SELECT id_contact FROM contacts WHERE name = ?1` of one row. -/
def contactId (name : String) (db : Database) : Except Fault ℕ :=
  match db.contacts.rows.find? fun c => decide (c.name = name) with
  | some c => .ok c.idContact
  | none => .error (.error "no rows returned by a query that expected to return at least one row")

def ifSome {α : Type} (o : Option α) (f : α → Edit Unit) : Edit Unit :=
  match o with
  | some a => f a
  | none => pure ()

section Edits
variable (lib : AddressLib) (network : NetworkType)

def insertAddresses (id : ℕ) (addresses : List (String × ℕ)) : Edit Unit :=
  Prog.each (fun (addr, ordinal) => do
    let expanded ← Prog.lift (expandAddressToReceiversWithPool lib network addr)
    Prog.each (fun receiver => Prog.statement (insertAddress id addr ordinal receiver)) expanded)
    addresses

def createContact (name : String) (addresses : List String) (notes : String) : Edit Contact := do
  Prog.statement (insertContact name notes)
  let id ← fun db => (contactId name db, db)
  insertAddresses lib network id addresses.zipIdx
  pure ⟨id, name, addresses, notes⟩

def updateContact (id : ℕ) (name : Option String) (addresses : Option (List String))
    (notes : Option String) : Edit Unit := do
  ifSome name fun name => Prog.statement (setName id name)
  ifSome notes fun notes => Prog.statement (setNotes id notes)
  ifSome addresses fun addresses => do
    Prog.statement (deleteAddresses id)
    insertAddresses lib network id addresses.zipIdx

/-! ### The addresses of a contact -/

def firstFault (addresses : List (String × ℕ)) : Option Fault :=
  addresses.findSome? fun a =>
    match expandAddressToReceiversWithPool lib network a.1 with
    | .ok _ => none
    | .error f => some f

def expandedRows (id : ℕ) : List (String × ℕ) → List (ℕ → ContactAddressRow)
  | [] => []
  | (addr, ordinal) :: addresses =>
    match expandAddressToReceiversWithPool lib network addr with
    | .ok expanded => expanded.map (addressRow id addr ordinal) ++ expandedRows id addresses
    | .error _ => []

variable {lib network}

omit lib network in
theorem insertAddress_run {id : ℕ} (addr : String) (ordinal : ℕ) (e : String × ℕ) {db : Database}
    (hid : ContactStored db id) : ∃ db' : Database,
      Prog.statement (insertAddress id addr ordinal e) db = (.ok (), db') ∧
      db'.contacts = db.contacts ∧
      db'.addresses = appendNew db.addresses (addressRow id addr ordinal e) :=
  ⟨_, Prog.statement_of_ok (dif_pos hid), rfl, rfl⟩

omit lib network in
theorem insertReceivers_run {id : ℕ} (addr : String) (ordinal : ℕ) (expanded : List (String × ℕ))
    {db : Database} (hid : ContactStored db id) : ∃ db' : Database,
      Prog.each (fun e => Prog.statement (insertAddress id addr ordinal e)) expanded db =
        (.ok (), db') ∧
      db'.contacts = db.contacts ∧
      db'.addresses = (expanded.map (addressRow id addr ordinal)).foldl appendNew db.addresses := by
  induction expanded generalizing db with
  | nil => exact ⟨db, rfl, rfl, rfl⟩
  | cons e expanded ih =>
    obtain ⟨db₁, hrun, hcontacts, haddresses⟩ := insertAddress_run addr ordinal e hid
    have hid₁ : ContactStored db₁ id := by rwa [ContactStored, hcontacts]
    obtain ⟨db₂, hrest, hcontacts₂, haddresses₂⟩ := ih hid₁
    refine ⟨db₂, ?_, hcontacts₂.trans hcontacts, ?_⟩
    · have hfirst := Prog.each_cons_of_ok
        (f := fun e => Prog.statement (insertAddress id addr ordinal e)) (l := expanded) hrun
      exact hfirst.trans hrest
    · rw [haddresses₂, haddresses, List.map_cons, List.foldl_cons]

variable (lib network) in
/-- What a loop over addresses leaves: their rows, up to the first that is not expanded. -/
theorem insertAddresses_run {id : ℕ} (addresses : List (String × ℕ)) {db : Database}
    (hid : ContactStored db id) : ∃ db' : Database, insertAddresses lib network id addresses db =
        ((match firstFault lib network addresses with
          | none => .ok ()
          | some f => .error f), db') ∧
      db'.contacts = db.contacts ∧
      db'.addresses = (expandedRows lib network id addresses).foldl appendNew db.addresses := by
  induction addresses generalizing db with
  | nil => exact ⟨db, rfl, rfl, rfl⟩
  | cons a addresses ih =>
    obtain ⟨addr, ordinal⟩ := a
    cases hexpand : expandAddressToReceiversWithPool lib network addr with
    | error f =>
      have hrun : insertAddresses lib network id ((addr, ordinal) :: addresses) db =
          (.error f, db) :=
        Prog.each_cons_of_error (Prog.bind_of_error (by rw [Prog.lift, hexpand]))
      refine ⟨db, ?_, rfl, ?_⟩
      · simp only [firstFault, List.findSome?_cons, hexpand]
        exact hrun
      · simp only [expandedRows, hexpand, List.foldl_nil]
    | ok expanded =>
      obtain ⟨db₁, hrun, hcontacts, haddresses⟩ := insertReceivers_run addr ordinal
        expanded hid
      have hid₁ : ContactStored db₁ id := by rwa [ContactStored, hcontacts]
      obtain ⟨db₂, hrest, hcontacts₂, haddresses₂⟩ := ih hid₁
      have hfirst : insertAddresses lib network id ((addr, ordinal) :: addresses) db =
          insertAddresses lib network id addresses db₁ :=
        Prog.each_cons_of_ok
          ((Prog.bind_of_ok (by rw [Prog.lift, hexpand])).trans hrun)
      refine ⟨db₂, ?_, hcontacts₂.trans hcontacts, ?_⟩
      · rw [hfirst, hrest]
        simp only [firstFault, List.findSome?_cons, hexpand]
      · rw [haddresses₂, haddresses]
        simp only [expandedRows, hexpand, List.foldl_append]

theorem insertAddresses_absent {id : ℕ} (addresses : List (String × ℕ)) {db : Database}
    (hid : ¬ ContactStored db id) : (insertAddresses lib network id addresses db).2 = db := by
  have hinsert : ∀ addr ordinal e, Prog.statement (insertAddress id addr ordinal e) db =
      (.error (.error "FOREIGN KEY constraint failed"), db) :=
    fun addr ordinal e => Prog.statement_of_error (dif_neg hid)
  refine Prog.each_keeps (I := fun s => s = db) (fun a _ s hs => ?_) rfl
  subst hs
  refine Prog.bind_keeps (I := fun t => t = s) rfl fun expanded t ht => ?_
  subst ht
  refine Prog.each_keeps (I := fun u => u = t) (fun e _ u hu => ?_) rfl
  subst hu
  rw [hinsert]

/-! ### Atomicity -/

/-- A call that returns an error leaves the tables as they were. -/
def Atomic {α : Type} (p : Edit α) (db : Database) : Prop :=
  ∀ m db', p db = (.error (.error m), db') → db' = db

theorem atomic_of_error {α : Type} {p : Edit α} {db : Database} {f : Fault}
    (h : p db = (.error f, db)) : Atomic p db := by
  intro m db' hrun
  rw [h, Prod.mk.injEq] at hrun
  exact hrun.2.symm

def Expands (lib : AddressLib) (network : NetworkType) (addresses : List (String × ℕ)) : Prop :=
  ∀ m, firstFault lib network addresses ≠ some (.error m)

def NameTaken (db : Database) (name : String) : Prop := ∃ c ∈ db.contacts.rows, c.name = name

theorem newContact_clash {db : Database} {name notes : String} {c : ContactRow}
    (hc : c ∈ db.contacts.rows) : Row.Clash c (newContact db name notes) ↔ c.name = name := by
  have hfresh := lt_nextId (List.mem_map_of_mem (f := ContactRow.idContact) hc)
  refine or_iff_right fun h => ?_
  change c.idContact = nextId (db.contacts.rows.map ContactRow.idContact) at h
  omega

theorem insertContact_taken {db : Database} {name : String} (h : NameTaken db name)
    (notes : String) :
    insertContact name notes db = .error (.error "UNIQUE constraint failed: contacts.name") := by
  unfold insertContact
  split
  next => rfl
  next t ht =>
    obtain ⟨c, hc, hname⟩ := h
    exact absurd ((newContact_clash hc).2 hname) ((Table.insert?_eq_some.1 ht).1 c hc)

theorem insertContact_fresh {db : Database} {name : String} (h : ¬ NameTaken db name)
    (notes : String) : ∃ db' : Database, insertContact name notes db = .ok db' ∧
      db'.contacts.rows = db.contacts.rows ++ [newContact db name notes] ∧
      db'.addresses = db.addresses := by
  unfold insertContact
  split
  next hnone =>
    obtain ⟨c, hc, hclash⟩ := Table.insert?_eq_none.1 hnone
    exact absurd ⟨c, hc, (newContact_clash hc).1 hclash⟩ h
  next t ht => exact ⟨_, rfl, (Table.insert?_eq_some.1 ht).2, rfl⟩

variable (lib network) in
theorem createContact_run {db : Database} {name : String} (htaken : ¬ NameTaken db name)
    (notes : String) (addresses : List String) : ∃ db' : Database,
      createContact lib network name addresses notes db =
        ((match firstFault lib network addresses.zipIdx with
          | none => .ok ⟨(newContact db name notes).idContact, name, addresses, notes⟩
          | some f => .error f), db') ∧
      db'.contacts.rows = db.contacts.rows ++ [newContact db name notes] ∧
      db'.addresses = (expandedRows lib network (newContact db name notes).idContact
        addresses.zipIdx).foldl appendNew db.addresses := by
  obtain ⟨db₁, hinsert, hrows, haddr⟩ := insertContact_fresh htaken notes
  have hid : contactId name db₁ = .ok (newContact db name notes).idContact := by
    have hnone : db.contacts.rows.find? (fun c => decide (c.name = name)) = none :=
      List.find?_eq_none.2 fun c hc => by simpa using fun hn => htaken ⟨c, hc, hn⟩
    rw [contactId, hrows, List.find?_append, hnone]
    simp [newContact]
  have hstored : ContactStored db₁ (newContact db name notes).idContact :=
    ⟨_, by rw [hrows]; exact List.mem_append_right _ (List.mem_singleton_self _), rfl⟩
  obtain ⟨db₂, hrun, hcontacts, haddr₂⟩ := insertAddresses_run lib network addresses.zipIdx
    hstored
  have hselect : (fun db => (contactId name db, db) : Edit ℕ) db₁ =
      (.ok (newContact db name notes).idContact, db₁) := by
    simp only [hid]
  have hcreate : createContact lib network name addresses notes db =
      (insertAddresses lib network (newContact db name notes).idContact addresses.zipIdx >>=
        fun _ => pure ⟨(newContact db name notes).idContact, name, addresses, notes⟩) db₁ :=
    (Prog.bind_of_ok (Prog.statement_of_ok hinsert)).trans (Prog.bind_of_ok hselect)
  refine ⟨db₂, ?_, by rw [hcontacts, hrows], by rw [haddr₂, haddr]⟩
  rw [hcreate]
  cases hfault : firstFault lib network addresses.zipIdx with
  | none => exact Prog.bind_of_ok (by rw [hrun, hfault])
  | some f => exact Prog.bind_of_error (by rw [hrun, hfault])

theorem createContact_taken {db : Database} {name : String} (h : NameTaken db name)
    (notes : String) (addresses : List String) :
    createContact lib network name addresses notes db =
      (.error (.error "UNIQUE constraint failed: contacts.name"), db) :=
  Prog.bind_of_error (Prog.statement_of_error (insertContact_taken h notes))

/-- The row of a contact that was created outlives an address that is not expanded. -/
theorem createContact_atomic_iff {db : Database} {name notes : String} {addresses : List String} :
    Atomic (createContact lib network name addresses notes) db ↔
      NameTaken db name ∨ Expands lib network addresses.zipIdx := by
  by_cases htaken : NameTaken db name
  · exact iff_of_true (atomic_of_error (createContact_taken htaken notes addresses)) (Or.inl htaken)
  obtain ⟨db', hrun, hrows, -⟩ := createContact_run lib network htaken notes addresses
  have hchanged : db' ≠ db := by
    rintro rfl
    rw [List.self_eq_append_right] at hrows
    cases hrows
  rw [or_iff_right htaken]
  constructor
  · intro hatomic m hfault
    rw [hfault] at hrun
    exact hchanged (hatomic m db' hrun)
  · intro hexpands m db'' hrun'
    rw [hrun, Prod.mk.injEq] at hrun'
    cases hfault : firstFault lib network addresses.zipIdx with
    | none => simp [hfault] at hrun'
    | some f =>
      simp only [hfault, Except.error.injEq] at hrun'
      exact absurd (hfault.trans (congrArg some hrun'.1)) (hexpands m)

/-! ### An update -/

def edited (id : ℕ) (name notes : Option String) (c : ContactRow) : ContactRow :=
  if c.idContact = id then { c with name := name.getD c.name, notes := notes.getD c.notes } else c

theorem edited_eq_self {id : ℕ} {name notes : Option String} {c : ContactRow} :
    edited id name notes c = c ↔
      (c.idContact = id → (∀ n ∈ name, c.name = n) ∧ ∀ n ∈ notes, c.notes = n) := by
  unfold edited
  split
  next h => cases name <;> cases notes <;> cases c <;> simp_all [eq_comm]
  next h => simp [h]

def NameElsewhere (db : Database) (id : ℕ) (name : Option String) : Prop :=
  ContactStored db id ∧ ∃ n ∈ name, ∃ c ∈ db.contacts.rows, c.idContact ≠ id ∧ c.name = n

theorem setName_run {db : Database} {id : ℕ} {name : Option String}
    (h : ¬ NameElsewhere db id name) : ∃ db' : Database,
      ifSome name (fun name => Prog.statement (setName id name)) db = (.ok (), db') ∧
      db'.contacts.rows = db.contacts.rows.map (edited id name none) ∧
      db'.addresses = db.addresses := by
  cases name with
  | none =>
    refine ⟨db, rfl, ?_, rfl⟩
    symm
    refine (List.map_congr_left fun c _ => ?_).trans (List.map_id _)
    exact edited_eq_self.2 fun _ => by simp
  | some n =>
    have hfree : ¬ (ContactStored db id ∧ ∃ c ∈ db.contacts.rows, c.idContact ≠ id ∧ c.name = n) :=
      fun hn => h ⟨hn.1, n, rfl, hn.2⟩
    exact ⟨_, Prog.statement_of_ok (dif_neg hfree), rfl, rfl⟩

theorem setNotes_run (db : Database) (id : ℕ) (notes : Option String) : ∃ db' : Database,
      ifSome notes (fun notes => Prog.statement (setNotes id notes)) db = (.ok (), db') ∧
      db'.contacts.rows = db.contacts.rows.map (edited id none notes) ∧
      db'.addresses = db.addresses := by
  cases notes with
  | none =>
    refine ⟨db, rfl, ?_, rfl⟩
    symm
    refine (List.map_congr_left fun c _ => ?_).trans (List.map_id _)
    exact edited_eq_self.2 fun _ => by simp
  | some n => exact ⟨_, Prog.statement_of_ok rfl, rfl, rfl⟩

theorem edited_edited (id : ℕ) (name notes : Option String) (c : ContactRow) :
    edited id none notes (edited id name none c) = edited id name notes c := by
  unfold edited
  split <;> simp_all

theorem contactStored_edited {db db' : Database} {id : ℕ} {name notes : Option String}
    (h : db'.contacts.rows = db.contacts.rows.map (edited id name notes))
    (hid : ContactStored db id) : ContactStored db' id := by
  obtain ⟨c, hc, hcid⟩ := hid
  refine ⟨edited id name notes c, h ▸ List.mem_map_of_mem hc, ?_⟩
  unfold edited
  split <;> exact hcid

/-- What an update writes in front of an address that is not expanded is what is stored. -/
structure Rewrites (lib : AddressLib) (network : NetworkType) (db : Database) (id : ℕ)
    (name : Option String) (addresses : Option (List String)) (notes : Option String) : Prop where
  contact : ∀ c ∈ db.contacts.rows, c.idContact = id →
    (∀ n ∈ name, c.name = n) ∧ ∀ n ∈ notes, c.notes = n
  rows : ∀ as ∈ addresses, (expandedRows lib network id as.zipIdx).foldl appendNew
    (db.addresses.deleteWhere fun a => decide (a.contactId = id)) = db.addresses

variable {db : Database} {id : ℕ} {name notes : Option String} {addresses : Option (List String)}

variable (lib network notes addresses) in
theorem updateContact_run (hid : ContactStored db id) (hname : ¬ NameElsewhere db id name) :
    ∃ db' : Database, updateContact lib network id name addresses notes db =
        ((match addresses.bind fun as => firstFault lib network as.zipIdx with
          | none => .ok ()
          | some f => .error f), db') ∧
      db'.contacts.rows = db.contacts.rows.map (edited id name notes) ∧
      (∀ as ∈ addresses, db'.addresses = (expandedRows lib network id as.zipIdx).foldl appendNew
        (db.addresses.deleteWhere fun a => decide (a.contactId = id))) := by
  obtain ⟨db₁, hrun₁, hrows₁, haddr₁⟩ := setName_run hname
  obtain ⟨db₂, hrun₂, hrows₂, haddr₂⟩ := setNotes_run db₁ id notes
  have hrows : db₂.contacts.rows = db.contacts.rows.map (edited id name notes) := by
    rw [hrows₂, hrows₁, List.map_map]
    exact List.map_congr_left fun c _ => edited_edited id name notes c
  have hstart : updateContact lib network id name addresses notes db =
      ifSome addresses (fun addresses => do
        Prog.statement (deleteAddresses id)
        insertAddresses lib network id addresses.zipIdx) db₂ :=
    (Prog.bind_of_ok hrun₁).trans (Prog.bind_of_ok hrun₂)
  rw [hstart]
  cases addresses with
  | none => exact ⟨db₂, rfl, hrows, fun as has => by cases has⟩
  | some as =>
    have hdelete : ∃ db₃ : Database, Prog.statement (deleteAddresses id) db₂ = (.ok (), db₃) ∧
        db₃.contacts = db₂.contacts ∧
        db₃.addresses = db.addresses.deleteWhere fun a => decide (a.contactId = id) :=
      ⟨_, Prog.statement_of_ok rfl, rfl, by simp only [haddr₂, haddr₁]⟩
    obtain ⟨db₃, hrun₃, hcontacts₃, haddr₃⟩ := hdelete
    have hid₃ : ContactStored db₃ id := by
      rw [ContactStored, hcontacts₃]
      exact contactStored_edited hrows hid
    obtain ⟨db₄, hrun₄, hcontacts₄, haddr₄⟩ := insertAddresses_run lib network
      as.zipIdx hid₃
    refine ⟨db₄, (Prog.bind_of_ok hrun₃).trans hrun₄, ?_, ?_⟩
    · rw [hcontacts₄, hcontacts₃, hrows]
    · intro as' has
      rw [← Option.some.inj has, haddr₄, haddr₃]

omit lib network in
theorem noEdit_of_absent (hid : ¬ ContactStored db id) :
    (∀ n, setName id n db = .ok db) ∧ (∀ n, setNotes id n db = .ok db) ∧
      deleteAddresses id db = .ok db := by
  have hne : ∀ c ∈ db.contacts.rows, c.idContact ≠ id := fun c hc heq => hid ⟨c, hc, heq⟩
  refine ⟨fun n => ?_, fun n => ?_, ?_⟩
  · rw [setName, dif_neg fun h => hid h.1]
    refine congrArg Except.ok (Database.ext_tables (Table.ext_rows ?_) rfl)
    exact (List.map_congr_left fun c hc => if_neg (hne c hc)).trans (List.map_id _)
  · refine congrArg Except.ok (Database.ext_tables (Table.ext_rows ?_) rfl)
    exact (List.map_congr_left fun c hc => if_neg (hne c hc)).trans (List.map_id _)
  · refine congrArg Except.ok (Database.ext_tables rfl ?_)
    refine Table.deleteWhere_eq_self fun a ha => decide_eq_false fun heq => ?_
    obtain ⟨c, hc, hcid⟩ := db.owned a ha
    exact hne c hc (hcid.trans heq)

theorem updateContact_absent (hid : ¬ ContactStored db id) :
    (updateContact lib network id name addresses notes db).2 = db := by
  obtain ⟨hname, hnotes, hdelete⟩ := noEdit_of_absent hid
  refine Prog.bind_keeps (I := fun s => s = db) ?_ fun _ s hs => ?_
  · cases name with
    | none => rfl
    | some n => rw [ifSome, Prog.statement_of_ok (hname n)]
  subst hs
  refine Prog.bind_keeps (I := fun t => t = s) ?_ fun _ t ht => ?_
  · cases notes with
    | none => rfl
    | some n => rw [ifSome, Prog.statement_of_ok (hnotes n)]
  subst ht
  cases addresses with
  | none => rfl
  | some as =>
    refine Prog.bind_keeps (I := fun u => u = t) ?_ fun _ u hu => ?_
    · rw [Prog.statement_of_ok hdelete]
    · subst hu
      exact insertAddresses_absent _ hid

theorem updateContact_taken (h : NameElsewhere db id name) :
    updateContact lib network id name addresses notes db =
      (.error (.error "UNIQUE constraint failed: contacts.name"), db) := by
  obtain ⟨hid, n, rfl, hn⟩ := h
  exact Prog.bind_of_error (Prog.statement_of_error (dif_pos ⟨hid, hn⟩))

/-- What was written in front of an address that is not expanded stays. -/
theorem updateContact_atomic_iff :
    Atomic (updateContact lib network id name addresses notes) db ↔
      ¬ ContactStored db id ∨ NameElsewhere db id name ∨
        (∀ as ∈ addresses, Expands lib network as.zipIdx) ∨
        Rewrites lib network db id name addresses notes := by
  by_cases hid : ContactStored db id
  swap
  · simp only [hid, not_false_eq_true, true_or, iff_true]
    intro m db' hrun
    have habsent : (updateContact lib network id name addresses notes db).2 = db :=
      updateContact_absent hid
    rwa [hrun] at habsent
  by_cases hname : NameElsewhere db id name
  · simp only [hname, true_or, or_true, iff_true]
    exact atomic_of_error (updateContact_taken hname)
  simp only [hid, hname, not_true_eq_false, false_or]
  obtain ⟨db', hrun, hrows, haddr⟩ := updateContact_run lib network notes addresses
    hid hname
  have hsame : db' = db ↔ (∀ c ∈ db.contacts.rows, edited id name notes c = c) ∧
      db'.addresses = db.addresses := by
    constructor
    · rintro rfl
      refine ⟨fun c hc => ?_, rfl⟩
      exact List.map_inj_left.1 (hrows.symm.trans (List.map_id _).symm) c hc
    · rintro ⟨hc, ha⟩
      refine Database.ext_tables (Table.ext_rows (hrows.trans ?_)) ha
      exact (List.map_congr_left hc).trans (List.map_id _)
  by_cases hexpands : ∀ as ∈ addresses, Expands lib network as.zipIdx
  · refine iff_of_true (fun m db'' hrun' => ?_) (Or.inl hexpands)
    rw [hrun, Prod.mk.injEq] at hrun'
    cases addresses with
    | none => cases hrun'.1
    | some as =>
      cases hfault : firstFault lib network as.zipIdx with
      | none => simp [hfault] at hrun'
      | some f =>
        simp only [Option.bind_some, hfault, Except.error.injEq] at hrun'
        exact absurd (hfault.trans (congrArg some hrun'.1)) (hexpands as rfl m)
  · rw [or_iff_right hexpands]
    simp only [not_forall, Expands, not_not] at hexpands
    obtain ⟨as, rfl, m, hfault⟩ := hexpands
    have herr : updateContact lib network id name (some as) notes db =
        (.error (.error m), db') := by
      simpa only [Option.bind_some, hfault] using hrun
    constructor
    · intro hatomic
      obtain ⟨hc, ha⟩ := hsame.1 (hatomic m db' herr)
      refine ⟨fun c hmem => edited_eq_self.1 (hc c hmem), fun as' has => ?_⟩
      rw [← haddr as' has, ha]
    · rintro ⟨hc, ha⟩ m' db'' hrun'
      rw [herr, Prod.mk.injEq] at hrun'
      rw [← hrun'.2]
      refine hsame.2 ⟨fun c hmem => edited_eq_self.2 (hc c hmem), ?_⟩
      rw [haddr as rfl, ha as rfl]

end Edits

end ZcashSdk.Contacts
