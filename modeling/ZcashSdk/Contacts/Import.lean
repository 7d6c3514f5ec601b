import ZcashSdk.Contacts.Edits

set_option autoImplicit false

/-!
# Contacts from vCards

The cards of a text are imported one after another, each as a new contact or into the
contact of its name.
-/
namespace ZcashSdk.Contacts
open Tables Effects
open Shielded (Fault)

/-! ### Text -/

/-- `White_Space` of Unicode. -/
def isWhitespace (c : Char) : Bool :=
  let n := c.toNat
  (9 ≤ n && n ≤ 13) || n == 0x20 || n == 0x85 || n == 0xA0 || n == 0x1680 ||
    (0x2000 ≤ n && n ≤ 0x200A) || n == 0x2028 || n == 0x2029 || n == 0x202F || n == 0x205F ||
    n == 0x3000

def trim (s : String) : String :=
  .ofList (((s.toList.dropWhile isWhitespace).reverse.dropWhile isWhitespace).reverse)

def stripPrefix (pre s : String) : Option String :=
  if pre.toList.isPrefixOf s.toList then some (.ofList (s.toList.drop pre.toList.length)) else none

def stripReturn (line : String) : String :=
  if line.toList.getLast? = some '\r' then .ofList line.toList.dropLast else line

/-- The last line needs no line feed at its end. -/
def lines (s : String) : List String :=
  let parts := s.splitOn "\n"
  parts.dropLast.map stripReturn ++ (parts.getLast?.filter (· ≠ "")).toList

/-! ### Cards -/

/-- What is read of a parsed vCard; `extensions` have a name and maybe a text. -/
structure Vcard where
  formattedName : List String
  note : List String
  extensions : List (String × Option String)

structure Card where
  name : String
  addresses : List String
  notes : String

section Import
variable (lib : AddressLib) (parse : String → Option Vcard) (network : NetworkType)

def isValidZcashAddress (s : String) : Bool :=
  match lib.tryFromEncoded s with
  | .ok _ => true
  | .error _ => false

/-- A line is an address, with or without its scheme, or it is a note. -/
def readLine (acc : String × List String) (line : String) : String × List String :=
  let trimmed := trim line
  let (notes, addresses) := acc
  if trimmed = "" then acc
  else match (stripPrefix "zcash:" trimmed).filter (isValidZcashAddress lib) with
    | some addr => (notes, addresses ++ [addr])
    | none =>
      if isValidZcashAddress lib trimmed then (notes, addresses ++ [trimmed])
      else ((if notes = "" then line else notes ++ "\n" ++ line), addresses)

def addMissing (addresses new : List String) : List String :=
  new.foldl (fun addresses a => if a ∈ addresses then addresses else addresses ++ [a]) addresses

/-- A vCard without a name or without addresses is no contact. -/
def readCard (vcard : Vcard) : Option Card :=
  let name := vcard.formattedName.head?.getD ""
  let (notes, addresses) := (lines (vcard.note.head?.getD "")).foldl (readLine lib) ("", [])
  let xAddresses := vcard.extensions.filterMap fun e =>
    if e.1 = "X-ZCASH-ADDRESS" then e.2 else none
  let addresses := addMissing addresses xAddresses
  if name = "" ∨ addresses = [] then none else some ⟨name, addresses, notes⟩

/-- Blocks that are empty or do not parse are skipped. -/
def readCards (vcardData : String) : List Card :=
  (vcardData.splitOn "END:VCARD").filterMap fun block =>
    if trim block = "" then none
    else (parse (trim block ++ "\nEND:VCARD")).bind (readCard lib)

/-! ### Import -/

/-- `SELECT DISTINCT address … ORDER BY ordinal`. -/
def addressesOf (id : ℕ) (db : Database) : List String :=
  (((db.addresses.rows.filter fun a => decide (a.contactId = id)).mergeSort
    fun a b => decide (a.ordinal ≤ b.ordinal)).map ContactAddressRow.address).eraseDups

def importCard (card : Card) : Edit Contact := do
  let existing ← Prog.query fun db => db.contacts.rows.find? fun c => decide (c.name = card.name)
  match existing with
  | some c => do
    let existingAddresses ← Prog.query (addressesOf c.idContact)
    updateContact lib network c.idContact (some card.name)
      (some (addMissing existingAddresses card.addresses)) (some card.notes)
    pure ⟨c.idContact, card.name, card.addresses, card.notes⟩
  | none => createContact lib network card.name card.addresses card.notes

def importCards : List Card → Edit (List Contact)
  | [] => pure []
  | card :: cards => do
    let contact ← importCard lib network card
    let imported ← importCards cards
    pure (contact :: imported)

def importContactsVcard (vcardData : String) : Edit (List Contact) :=
  importCards lib network (readCards lib parse vcardData)

/-! ### What a card leaves -/

variable {lib network}

theorem mem_foldl_appendNew {mks : List (ℕ → ContactAddressRow)} {t : Table ContactAddressRow}
    {a : ContactAddressRow} (h : a ∈ (mks.foldl appendNew t).rows) :
    a ∈ t.rows ∨ ∃ mk ∈ mks, ∃ i, a = mk i := by
  induction mks generalizing t with
  | nil => exact .inl h
  | cons mk mks ih =>
    rcases ih h with h | ⟨mk', hmk', hi⟩
    · rcases Table.mem_insertOrIgnore.1 h with h | ⟨rfl, -⟩
      · exact .inl h
      · exact .inr ⟨mk, List.mem_cons_self, _, rfl⟩
    · exact .inr ⟨mk', List.mem_cons_of_mem mk hmk', hi⟩

theorem mem_expandedRows {id : ℕ} {l : List (String × ℕ)} {mk : ℕ → ContactAddressRow}
    (h : mk ∈ expandedRows lib network id l) (i : ℕ) :
    (mk i).contactId = id ∧ ∃ a ∈ l, (mk i).address = a.1 := by
  induction l with
  | nil => cases h
  | cons a l ih =>
    obtain ⟨addr, ordinal⟩ := a
    rw [expandedRows] at h
    split at h
    next expanded _ =>
      rcases List.mem_append.1 h with h | h
      · obtain ⟨e, -, rfl⟩ := List.mem_map.1 h
        exact ⟨rfl, (addr, ordinal), List.mem_cons_self, rfl⟩
      · obtain ⟨hid, b, hb, heq⟩ := ih h
        exact ⟨hid, b, List.mem_cons_of_mem _ hb, heq⟩
    next => cases h

theorem find_name {db : Database} {name : String} {c : ContactRow}
    (h : db.contacts.rows.find? (fun c => decide (c.name = name)) = some c) :
    c ∈ db.contacts.rows ∧ c.name = name ∧ ContactStored db c.idContact ∧
      ¬ NameElsewhere db c.idContact (some name) := by
  have hc := List.mem_of_find?_eq_some h
  have hname : c.name = name := by simpa using List.find?_some h
  refine ⟨hc, hname, ⟨c, hc, rfl⟩, ?_⟩
  rintro ⟨-, n, hn, d, hd, hne, hdn⟩
  have hdc : d.name = c.name := hdn.trans ((Option.some.inj hn).symm.trans hname.symm)
  exact hne (congrArg ContactRow.idContact (db.contacts.eq_of_clash hd hc (Or.inr hdc)))

theorem edited_name {db : Database} {c d : ContactRow} (hc : c ∈ db.contacts.rows)
    (hd : d ∈ db.contacts.rows) (notes : Option String) :
    (edited c.idContact (some c.name) notes d).name = d.name := by
  unfold edited
  split
  next h => rw [db.contacts.eq_of_clash hd hc (Or.inl h)]; rfl
  next => rfl

variable (lib network) in
/-- What the import of a card does. -/
theorem importCard_run (db : Database) (card : Card) :
    (∃ c ∈ db.contacts.rows, c.name = card.name ∧ ∃ db' : Database, ∃ r,
      importCard lib network card db =
        ((match firstFault lib network
            (addMissing (addressesOf c.idContact db) card.addresses).zipIdx with
          | none => .ok r
          | some f => .error f), db') ∧
      db'.contacts.rows =
        db.contacts.rows.map (edited c.idContact (some card.name) (some card.notes)) ∧
      db'.addresses = (expandedRows lib network c.idContact
        (addMissing (addressesOf c.idContact db) card.addresses).zipIdx).foldl appendNew
          (db.addresses.deleteWhere fun a => decide (a.contactId = c.idContact))) ∨
    (¬ NameTaken db card.name ∧
      importCard lib network card db =
        createContact lib network card.name card.addresses card.notes db) := by
  have hquery : ∀ o, db.contacts.rows.find? (fun c => decide (c.name = card.name)) = o →
      Prog.query (fun db : Database => db.contacts.rows.find? fun c => decide (c.name = card.name))
        db = ((.ok o : Except Fault _), db) := by
    rintro o rfl
    rfl
  cases hfind : db.contacts.rows.find? (fun c => decide (c.name = card.name)) with
  | none =>
    refine .inr ⟨?_, ?_⟩
    · rintro ⟨c, hc, hname⟩
      simpa [hname] using List.find?_eq_none.1 hfind c hc
    · rw [importCard, Prog.bind_of_ok (hquery none hfind)]
  | some c =>
    obtain ⟨hc, hname, hid, helse⟩ := find_name hfind
    obtain ⟨db', hrun, hrows, haddr⟩ := updateContact_run lib network (some card.notes)
      (some (addMissing (addressesOf c.idContact db) card.addresses)) hid helse
    have hstart : importCard lib network card db =
        (updateContact lib network c.idContact (some card.name)
          (some (addMissing (addressesOf c.idContact db) card.addresses)) (some card.notes) >>=
          fun _ => pure ⟨c.idContact, card.name, card.addresses, card.notes⟩) db := by
      rw [importCard, Prog.bind_of_ok (hquery (some c) hfind)]
      exact Prog.bind_of_ok rfl
    refine .inl ⟨c, hc, hname, db', ⟨c.idContact, card.name, card.addresses, card.notes⟩, ?_, hrows,
      haddr _ rfl⟩
    rw [hstart]
    rw [Option.bind_some] at hrun
    cases hfault : firstFault lib network
        (addMissing (addressesOf c.idContact db) card.addresses).zipIdx with
    | none => exact Prog.bind_of_ok (by rw [hrun, hfault])
    | some f => exact Prog.bind_of_error (by rw [hrun, hfault])

variable (lib network) in
theorem importCard_named (db : Database) (card : Card) :
    NameTaken (importCard lib network card db).2 card.name ∧
      ∀ name, NameTaken db name → NameTaken (importCard lib network card db).2 name := by
  rcases importCard_run lib network db card with
    ⟨c, hc, hname, db', r, hrun, hrows, -⟩ | ⟨hnew, hrun⟩
  · rw [hrun]
    have hkept : ∀ name, NameTaken db name → NameTaken db' name := by
      rintro name ⟨d, hd, rfl⟩
      refine ⟨_, by rw [hrows]; exact List.mem_map_of_mem hd, ?_⟩
      rw [← hname]
      exact edited_name hc hd _
    exact ⟨hkept _ ⟨c, hc, hname⟩, hkept⟩
  · obtain ⟨db', hcreate, hrows, -⟩ := createContact_run lib network hnew card.notes
      card.addresses
    rw [hrun, hcreate]
    constructor
    · exact ⟨_, by rw [hrows]; exact List.mem_append_right _ (List.mem_singleton_self _), rfl⟩
    · rintro name ⟨d, hd, hdn⟩
      exact ⟨d, by rw [hrows]; exact List.mem_append_left _ hd, hdn⟩

/-- The cards up to the one that fails have left their names. -/
theorem importCards_named {cards : List Card} {db db' : Database} {f : Fault}
    (h : importCards lib network cards db = (.error f, db')) :
    ∃ before card after, cards = before ++ card :: after ∧
      (∀ c ∈ before ++ [card], NameTaken db' c.name) ∧
      ∀ name, NameTaken db name → NameTaken db' name := by
  induction cards generalizing db with
  | nil => cases h
  | cons card cards ih =>
    obtain ⟨hown, hkept⟩ := importCard_named lib network db card
    rcases Prog.bind_eq_error.1 h with hcard | ⟨r, db₁, hcard, hrest⟩
    · rw [hcard] at hown hkept
      refine ⟨[], card, cards, rfl, ?_, hkept⟩
      simpa using hown
    · rw [hcard] at hown hkept
      rcases Prog.bind_eq_error.1 hrest with hcards | ⟨_, _, -, hpure⟩
      · obtain ⟨before, c, after, rfl, hnamed, hkept'⟩ := ih hcards
        refine ⟨card :: before, c, after, rfl, ?_, fun name hn => hkept' name (hkept name hn)⟩
        intro x hx
        rcases List.mem_cons.1 hx with rfl | hx
        · exact hkept' _ hown
        · exact hnamed x hx
      · cases hpure

/-! ### Imports that do not fail -/

def Valid (lib : AddressLib) (network : NetworkType) (addr : String) : Prop :=
  ∀ m, expandAddressToReceiversWithPool lib network addr ≠ .error (.error m)

theorem expands_of_valid {l : List String} (h : ∀ a ∈ l, Valid lib network a) :
    Expands lib network l.zipIdx := by
  intro m hfault
  obtain ⟨⟨a, i⟩, hmem, hexpand⟩ := List.exists_of_findSome?_eq_some hfault
  simp only at hexpand
  split at hexpand
  next => cases hexpand
  next f hf =>
    rw [Option.some.inj hexpand] at hf
    exact h a (List.fst_mem_of_mem_zipIdx hmem) m hf

theorem mem_addMissing {addresses new : List String} {a : String} (h : a ∈ addMissing addresses new) :
    a ∈ addresses ∨ a ∈ new := by
  induction new generalizing addresses with
  | nil => exact .inl h
  | cons b new ih =>
    rcases ih h with h | h
    · simp only at h
      split at h
      next => exact .inl h
      next =>
        rcases List.mem_append.1 h with h | h
        · exact .inl h
        · exact .inr (List.mem_singleton.1 h ▸ List.mem_cons_self)
    · exact .inr (List.mem_cons_of_mem b h)

theorem mem_addressesOf {id : ℕ} {db : Database} {a : String} (h : a ∈ addressesOf id db) :
    ∃ r ∈ db.addresses.rows, r.contactId = id ∧ r.address = a := by
  rw [addressesOf, List.mem_eraseDups, List.mem_map] at h
  obtain ⟨r, hr, rfl⟩ := h
  rw [List.mem_mergeSort, List.mem_filter, decide_eq_true_eq] at hr
  exact ⟨r, hr.1, hr.2, rfl⟩

/-- The addresses of the cards are valid, and so are those stored for the contacts they name. -/
structure Importable (lib : AddressLib) (network : NetworkType) (db : Database)
    (cards : List Card) : Prop where
  own : ∀ card ∈ cards, ∀ a ∈ card.addresses, Valid lib network a
  stored : ∀ c ∈ db.contacts.rows, (∃ card ∈ cards, card.name = c.name) →
    ∀ r ∈ db.addresses.rows, r.contactId = c.idContact → Valid lib network r.address

theorem valid_of_mem_appended {id : ℕ} {l : List String} (hl : ∀ a ∈ l, Valid lib network a)
    {t : Table ContactAddressRow} {r : ContactAddressRow}
    (hr : r ∈ ((expandedRows lib network id l.zipIdx).foldl appendNew t).rows) :
    r ∈ t.rows ∨ Valid lib network r.address := by
  rcases mem_foldl_appendNew hr with hr | ⟨mk, hmk, i, rfl⟩
  · exact .inl hr
  · obtain ⟨-, ⟨a, j⟩, ha, heq⟩ := mem_expandedRows hmk i
    rw [heq]
    exact .inr (hl a (List.fst_mem_of_mem_zipIdx ha))

theorem importCard_importable {db : Database} {card : Card} {cards : List Card}
    (h : Importable lib network db (card :: cards)) :
    (∀ m, (importCard lib network card db).1 ≠ .error (.error m)) ∧
      Importable lib network (importCard lib network card db).2 cards := by
  have hcards : ∀ c ∈ cards, ∀ a ∈ c.addresses, Valid lib network a :=
    fun c hc => h.own c (List.mem_cons_of_mem card hc)
  have hown : ∀ a ∈ card.addresses, Valid lib network a := h.own card List.mem_cons_self
  rcases importCard_run lib network db card with
    ⟨c, hc, hname, db', r, hrun, hrows, haddr⟩ | ⟨hnew, hrun⟩
  · have hmerged : ∀ a ∈ addMissing (addressesOf c.idContact db) card.addresses,
        Valid lib network a := by
      intro a ha
      rcases mem_addMissing ha with ha | ha
      · obtain ⟨row, hrow, hid, rfl⟩ := mem_addressesOf ha
        exact h.stored c hc ⟨card, List.mem_cons_self, hname.symm⟩ row hrow hid
      · exact hown a ha
    rw [hrun]
    refine ⟨fun m herr => ?_, hcards, fun c' hc' hnamed row hrow hid => ?_⟩
    · cases hfault : firstFault lib network
          (addMissing (addressesOf c.idContact db) card.addresses).zipIdx with
      | none => simp [hfault] at herr
      | some f =>
        simp only [hfault, Except.error.injEq] at herr
        exact expands_of_valid hmerged m (hfault.trans (congrArg some herr))
    · rw [hrows] at hc'
      obtain ⟨d, hd, rfl⟩ := List.mem_map.1 hc'
      rw [haddr] at hrow
      rcases valid_of_mem_appended hmerged hrow with hrow | hvalid
      · obtain ⟨named, hmem, hnamed⟩ := hnamed
        rw [← hname, edited_name hc hd] at hnamed
        refine h.stored d hd ⟨named, List.mem_cons_of_mem card hmem, hnamed⟩ row
          (Table.mem_deleteWhere.1 hrow).1 (hid.trans ?_)
        unfold edited
        split <;> rfl
      · exact hvalid
  · obtain ⟨db', hcreate, hrows, haddr⟩ := createContact_run lib network hnew card.notes
      card.addresses
    rw [hrun, hcreate]
    refine ⟨fun m herr => ?_, hcards, fun c' hc' hnamed row hrow hid => ?_⟩
    · cases hfault : firstFault lib network card.addresses.zipIdx with
      | none => simp [hfault] at herr
      | some f =>
        simp only [hfault, Except.error.injEq] at herr
        exact expands_of_valid hown m (hfault.trans (congrArg some herr))
    · rw [haddr] at hrow
      rcases valid_of_mem_appended hown hrow with hrow | hvalid
      · obtain ⟨d, hd, hdid⟩ := db.owned row hrow
        rw [hrows] at hc'
        rcases List.mem_append.1 hc' with hc' | hc'
        · obtain ⟨named, hmem, hnamed⟩ := hnamed
          exact h.stored c' hc' ⟨named, List.mem_cons_of_mem card hmem, hnamed⟩ row hrow hid
        · -- No stored row belongs to the number of a new contact.
          have hlt := lt_nextId (List.mem_map_of_mem (f := ContactRow.idContact) hd)
          rw [List.mem_singleton.1 hc'] at hid
          change row.contactId = nextId _ at hid
          omega
      · exact hvalid

theorem importCards_of_importable {cards : List Card} {db db' : Database} {m : String}
    (h : Importable lib network db cards) :
    importCards lib network cards db ≠ (.error (.error m), db') := by
  induction cards generalizing db with
  | nil => intro hrun; cases hrun
  | cons card cards ih =>
    obtain ⟨hok, hrest⟩ := importCard_importable h
    intro hrun
    rcases Prog.bind_eq_error.1 hrun with hcard | ⟨r, db₁, hcard, hcards⟩
    · rw [hcard] at hok
      exact hok m rfl
    · rw [hcard] at hrest
      rcases Prog.bind_eq_error.1 hcards with hcards | ⟨_, _, -, hpure⟩
      · exact ih hrest hcards
      · cases hpure

/-- Exactly when a call leaves what it wrote in front of an address that is not expanded, and
    what an import may do without. -/
theorem contact_edits_atomic (lib : AddressLib) (parse : String → Option Vcard)
    (network : NetworkType) (db : Database) :
    (∀ name addresses notes, Atomic (createContact lib network name addresses notes) db ↔
      NameTaken db name ∨ Expands lib network addresses.zipIdx) ∧
    (∀ id name addresses notes, Atomic (updateContact lib network id name addresses notes) db ↔
      ¬ ContactStored db id ∨ NameElsewhere db id name ∨
        (∀ as ∈ addresses, Expands lib network as.zipIdx) ∨
        Rewrites lib network db id name addresses notes) ∧
    ∀ vcardData, (Importable lib network db (readCards lib parse vcardData) →
        Atomic (importContactsVcard lib parse network vcardData) db) ∧
      ∀ f, importContactsVcard lib parse network vcardData db = (.error f, db) →
        ∃ before card after, readCards lib parse vcardData = before ++ card :: after ∧
          ∀ c ∈ before ++ [card], NameTaken db c.name := by
  refine ⟨fun _ _ _ => createContact_atomic_iff, fun _ _ _ _ => updateContact_atomic_iff,
    fun vcardData => ⟨fun h m db' hrun => ?_, fun f hrun => ?_⟩⟩
  · exact absurd hrun (importCards_of_importable h)
  · obtain ⟨before, card, after, heq, hnamed, -⟩ := importCards_named hrun
    exact ⟨before, card, after, heq, hnamed⟩

end Import

/-- Only strings with a `t` in front are addresses. -/
def tLib : AddressLib where
  ZAddress := Unit
  decodeUnified _ := none
  encodeP2pkh _ _ := ""
  encodeP2sh _ _ := ""
  encodeSapling _ _ := none
  encodeOrchard _ _ := none
  tryFromEncoded s := if s.toList.head? = some 't' then .ok () else .error "invalid"
  canReceiveAs _ _ := true

def noContacts : Database := ⟨.empty, .empty, fun _ ha => absurd ha List.not_mem_nil⟩

/-- The contact and its first address stay where the second address is invalid. -/
theorem half_contact_stays :
    let call := createContact tLib .main "Ann" ["t1", "x"] "" noContacts
    (match call.1 with
      | .error f => some f
      | .ok _ => none) = some (.error "Invalid address: invalid") ∧
    call.2.contacts.rows = [⟨1, "Ann", ""⟩] ∧ call.2.addresses.rows = [⟨1, 1, "t1", "t1", 0, 0⟩] := by
  decide

end ZcashSdk.Contacts
