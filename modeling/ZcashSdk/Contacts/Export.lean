import ZcashSdk.Contacts.Reading
import ZcashSdk.Lib.Joins

set_option autoImplicit false

/-!
# Contacts as vCards

The contacts are written as cards, their addresses below a heading at the end of the note. When
the text is imported, the note is read line by line again.
-/
namespace ZcashSdk.Contacts
open Tables Effects Joins Text
open Shielded (Fault)

/-! ### The listed contacts -/

def nameAndOrdinal (x y : ContactRow × Option ContactAddressRow) : Bool :=
  decide (x.1.name < y.1.name) || decide (x.1.name = y.1.name) &&
    match x.2, y.2 with
    | some a, some b => decide (a.ordinal ≤ b.ordinal)
    | none, _ => true
    | some _, none => false

/-- `contacts LEFT JOIN contact_addresses … ORDER BY name, ordinal`. -/
def contactRows (db : Database) : List (ContactRow × Option ContactAddressRow) :=
  (leftJoin (fun c a => decide (c.idContact = a.contactId)) db.contacts.rows
    db.addresses.rows).mergeSort nameAndOrdinal

structure Listing where
  contacts : List Contact
  current : Option Contact
  seenIds : List ℕ

/-- The first row of a contact ends the one in front of it. -/
def startContact (l : Listing) (c : ContactRow) : Listing :=
  if c.idContact ∈ l.seenIds then l
  else
    { contacts := l.contacts ++ l.current.toList
      current := some ⟨c.idContact, c.name, [], c.notes⟩
      seenIds := c.idContact :: l.seenIds }

def addAddress (a : Option ContactAddressRow) (c : Contact) : Contact :=
  match a with
  | some a => { c with addresses := addMissing c.addresses [a.address] }
  | none => c

def listRow (l : Listing) (row : ContactRow × Option ContactAddressRow) : Listing :=
  let l := startContact l row.1
  { l with current := l.current.map (addAddress row.2) }

def listContacts (db : Database) : List Contact :=
  let l := (contactRows db).foldl listRow ⟨[], none, []⟩
  l.contacts ++ l.current.toList

/-! ### Export -/

structure VcardLib where
  toString : Vcard → String
  tryInto : String → Option Vcard

def exportNote (c : Contact) : String :=
  "\n\n".intercalate
    ((if c.notes = "" then [] else [c.notes]) ++
      if c.addresses = [] then []
      else ["Zcash addresses:\n" ++ "\n".intercalate (c.addresses.map ("zcash:" ++ ·))])

def exportCard (c : Contact) : Vcard :=
  let note := exportNote c
  ⟨[c.name], if note = "" then [] else [note], []⟩

def exportContactsVcard (vcards : VcardLib) (db : Database) : String :=
  (listContacts db).foldl (fun output c => output ++ vcards.toString (exportCard c) ++ "\n") ""

/-! ### What the list holds -/

def Contact.row (c : Contact) : ContactRow := ⟨c.id, c.name, c.notes⟩

def Listing.rows (l : Listing) : List ContactRow := (l.contacts ++ l.current.toList).map Contact.row

theorem addAddress_row (a : Option ContactAddressRow) (c : Contact) :
    (addAddress a c).row = c.row := by
  cases a <;> rfl

theorem map_current_rows (l : Listing) (a : Option ContactAddressRow) :
    Listing.rows { l with current := l.current.map (addAddress a) } = l.rows := by
  obtain ⟨contacts, current, seenIds⟩ := l
  cases current with
  | none => rfl
  | some c => simp [Listing.rows, addAddress_row]

/-- The rows that were read so far are those of the contacts seen. -/
structure Lists (rows : List ContactRow) (l : Listing) : Prop where
  listed : ∀ r ∈ l.rows, r ∈ rows
  seen : ∀ id ∈ l.seenIds, ∃ r ∈ l.rows, r.idContact = id
  all : ∀ r ∈ rows, r.idContact ∈ l.seenIds

theorem startContact_lists {rows : List ContactRow} {l : Listing} (h : Lists rows l)
    (c : ContactRow) : Lists (rows ++ [c]) (startContact l c) := by
  unfold startContact
  split
  next hseen =>
    refine ⟨fun r hr => List.mem_append_left _ (h.listed r hr), h.seen, fun r hr => ?_⟩
    rcases List.mem_append.1 hr with hr | hr
    · exact h.all r hr
    · rwa [List.mem_singleton.1 hr]
  next =>
    have hrows : Listing.rows ⟨l.contacts ++ l.current.toList,
        some ⟨c.idContact, c.name, [], c.notes⟩, c.idContact :: l.seenIds⟩ = l.rows ++ [c] := by
      simp [Listing.rows, Contact.row]
    refine ⟨fun r hr => ?_, fun id hid => ?_, fun r hr => ?_⟩
    · rw [hrows, List.mem_append] at hr
      exact List.mem_append.2 (hr.imp_left (h.listed r))
    · rw [hrows]
      rcases List.mem_cons.1 hid with rfl | hid
      · exact ⟨c, List.mem_append_right _ List.mem_cons_self, rfl⟩
      · obtain ⟨r, hr, hid⟩ := h.seen id hid
        exact ⟨r, List.mem_append_left _ hr, hid⟩
    · rcases List.mem_append.1 hr with hr | hr
      · exact List.mem_cons_of_mem _ (h.all r hr)
      · rw [List.mem_singleton.1 hr]
        exact List.mem_cons_self

theorem listRow_lists {rows : List ContactRow} {l : Listing} (h : Lists rows l)
    (row : ContactRow × Option ContactAddressRow) : Lists (rows ++ [row.1]) (listRow l row) := by
  obtain ⟨hlisted, hseen, hall⟩ := startContact_lists h row.1
  have hrows := map_current_rows (startContact l row.1) row.2
  refine ⟨fun r hr => hlisted r (hrows ▸ hr), fun id hid => ?_, hall⟩
  rw [listRow, hrows]
  exact hseen id hid

theorem foldl_lists (rows : List (ContactRow × Option ContactAddressRow)) :
    Lists (rows.map Prod.fst) (rows.foldl listRow ⟨[], none, []⟩) := by
  induction rows using List.reverseRecOn with
  | nil =>
    exact ⟨fun _ h => h, fun _ h => absurd h List.not_mem_nil, fun _ h => absurd h List.not_mem_nil⟩
  | append_singleton rows row ih =>
    rw [List.map_append, List.foldl_append]
    exact listRow_lists ih row

theorem mem_contactRows {db : Database} {r : ContactRow} :
    r ∈ (contactRows db).map Prod.fst ↔ r ∈ db.contacts.rows := by
  rw [contactRows, ((List.mergeSort_perm _ _).map Prod.fst).mem_iff]
  exact mem_map_leftJoin

theorem mem_listContacts {db : Database} {r : ContactRow} :
    r ∈ (listContacts db).map Contact.row ↔ r ∈ db.contacts.rows := by
  obtain ⟨hlisted, hseen, hall⟩ := foldl_lists (contactRows db)
  constructor
  · exact fun hr => mem_contactRows.1 (hlisted r hr)
  · intro hr
    obtain ⟨s, hs, hid⟩ := hseen _ (hall r (mem_contactRows.2 hr))
    have hs' := mem_contactRows.1 (hlisted s hs)
    rw [← db.contacts.eq_of_clash hs' hr (Or.inl hid)]
    exact hs

theorem listContacts_eq_nil {db : Database} (h : db.contacts.rows = []) : listContacts db = [] := by
  by_contra hne
  obtain ⟨c, hc⟩ := List.exists_mem_of_ne_nil _ hne
  have hrow := mem_listContacts.1 (List.mem_map_of_mem (f := Contact.row) hc)
  rw [h] at hrow
  cases hrow

/-! ### The note of a contact -/

/-- What a text is read as where it is cut in front of an end mark, and the blanks there lost. -/
def CutOf (n note : String) : Prop :=
  ∃ blanks rest, note = n ++ blanks ++ rest ∧ trim blanks = "" ∧
    (rest = "" ∨ ∃ t, rest = "END:VCARD" ++ t)

def ending (c : Contact) : String :=
  if c.addresses = [] then ""
  else (if c.notes = "" then "" else "\n\n") ++ "Zcash addresses:" ++
    ("\n" ++ "\n".intercalate (c.addresses.map ("zcash:" ++ ·)))

theorem exportNote_eq (c : Contact) : exportNote c = c.notes ++ ending c := by
  have hheading : "Zcash addresses:\n" = "Zcash addresses:" ++ "\n" := rfl
  unfold exportNote ending
  rw [hheading]
  by_cases hnotes : c.notes = "" <;> by_cases haddr : c.addresses = [] <;>
    simp only [hnotes, haddr, if_true, if_false, List.nil_append, List.append_nil,
      List.singleton_append, String.intercalate_nil, String.intercalate_singleton,
      String.intercalate_cons_cons, String.append_assoc, String.empty_append, String.append_empty]

variable {lib : AddressLib}

theorem isNote_heading (h : isValidZcashAddress lib "Zcash addresses:" = false) :
    isNote lib "Zcash addresses:" = true := by
  have htrim : trim "Zcash addresses:" = "Zcash addresses:" := rfl
  have hstrip : stripPrefix "zcash:" "Zcash addresses:" = none := rfl
  simp [isNote, lineAddress, htrim, hstrip, h]

theorem one_le_noteCount_heading (h : isValidZcashAddress lib "Zcash addresses:" = false)
    {y : String} (hy : y = "" ∨ ∃ z, y = "\n" ++ z) :
    1 ≤ noteCount lib ("Zcash addresses:" ++ y) := by
  have hone : noteCount lib "Zcash addresses:" = 1 := by
    have hsplit : "Zcash addresses:".splitOn "\n" = ["Zcash addresses:"] := by
      rw [splitOn_newline]
      rfl
    rw [noteCount, hsplit, List.countP_singleton, if_pos (isNote_heading h)]
  rcases hy with rfl | ⟨z, rfl⟩
  · rw [String.append_empty, hone]
  · rw [← String.append_assoc, noteCount_newline, hone]
    exact Nat.le_add_right 1 _

theorem heading_of_cut {c : Contact} {x rest : String} (h : ending c = x ++ rest) (hx : x ≠ "")
    (hrest : rest = "" ∨ ∃ t, rest = "END:VCARD" ++ t) :
    ∃ y, x = (if c.notes = "" then "" else "\n\n") ++ "Zcash addresses:" ++ y ∧
      (y = "" ∨ ∃ z, y = "\n" ++ z) := by
  unfold ending at h
  split at h
  next => exact absurd (String.append_eq_empty_iff.1 h.symm).1 hx
  generalize hhd : (if c.notes = "" then "" else "\n\n") ++ "Zcash addresses:" = hd at h ⊢
  have hmark : 'E' ∉ hd.toList := by
    rw [← hhd]
    split <;> decide
  rcases append_eq_append h with ⟨y, hy, hrest'⟩ | ⟨y, hhd', hrest'⟩
  · refine ⟨y, hy, ?_⟩
    rcases append_eq_append hrest' with ⟨z, hz, -⟩ | ⟨z, hz, -⟩
    · exact .inr ⟨z, hz⟩
    · have hlist := congrArg String.toList hz
      rw [String.toList_append] at hlist
      rcases List.append_eq_singleton_iff.1 hlist.symm with ⟨hnil, -⟩ | ⟨hone, -⟩
      · exact .inl (String.toList_eq_nil_iff.1 hnil)
      · exact .inr ⟨"", String.toList_inj.1 hone⟩
  · -- A mark would begin in the heading or at its end.
    exfalso
    rcases hrest with hrest | ⟨t, hrest⟩
    · rw [hrest, eq_comm, String.append_eq_empty_iff, String.append_eq_empty_iff] at hrest'
      exact absurd hrest'.2.1 (by decide)
    · rw [hrest] at hrest'
      have hlist := congrArg String.toList hrest'
      rw [String.toList_append, String.toList_append, String.toList_append] at hlist
      cases hcs : y.toList with
      | nil => simp [hcs] at hlist
      | cons a cs =>
        rw [hcs, List.cons_append] at hlist
        have hE : 'E' = a := (List.cons.inj hlist).1
        refine hmark ?_
        rw [hhd', String.toList_append, hcs, hE]
        exact List.mem_append_right _ List.mem_cons_self

theorem lineAddress_scheme {a : String} (hvalid : isValidZcashAddress lib a = true)
    (hfree : ∀ ch ∈ a.toList, isWhitespace ch = false) :
    lineAddress lib ("zcash:" ++ a) = some a := by
  have hscheme : ∀ ch ∈ "zcash:".toList, isWhitespace ch = false := by
    have hall : "zcash:".toList.all (fun ch => !isWhitespace ch) = true := rfl
    simpa using hall
  have htrim : trim ("zcash:" ++ a) = "zcash:" ++ a := by
    have hall : ∀ ch ∈ ("zcash:" ++ a).toList, isWhitespace ch = false := fun ch hch => by
      rw [String.toList_append, List.mem_append] at hch
      exact hch.elim (hscheme ch) (hfree ch)
    exact (congrArg String.ofList (trimWhile_eq_self hall)).trans String.ofList_toList
  have hstrip : stripPrefix "zcash:" ("zcash:" ++ a) = some a := by
    simp [stripPrefix]
  have hne : "zcash:" ++ a ≠ "" := by simp
  simp only [lineAddress, htrim, hstrip, if_neg hne, Option.filter_some, hvalid, if_true]

theorem exists_address_line {c : Contact} (haddr : c.addresses ≠ [])
    (hvalid : ∀ a ∈ c.addresses, isValidZcashAddress lib a = true ∧
      ∀ ch ∈ a.toList, isWhitespace ch = false) :
    ∃ line ∈ lines (exportNote c), (lineAddress lib line).isSome := by
  obtain ⟨a, as, has⟩ := List.exists_cons_of_ne_nil haddr
  have ha : a ∈ c.addresses := has ▸ List.mem_cons_self
  have hfree : ∀ line ∈ c.addresses.map ("zcash:" ++ ·), '\n' ∉ line.toList := by
    intro line hline hmem
    obtain ⟨b, hb, rfl⟩ := List.mem_map.1 hline
    rw [String.toList_append, List.mem_append] at hmem
    rcases hmem with hmem | hmem
    · exact absurd hmem (by decide)
    · exact absurd ((hvalid b hb).2 _ hmem) (by decide)
  have hnote : exportNote c = c.notes ++ (if c.notes = "" then "" else "\n\n") ++
      "Zcash addresses:" ++ "\n" ++ "\n".intercalate (c.addresses.map ("zcash:" ++ ·)) := by
    rw [exportNote_eq, ending, if_neg haddr]
    simp only [String.append_assoc]
  refine address_line_of_part (p := "zcash:" ++ a) ?_ ?_
  · rw [hnote, splitOn_newline_append, splitOn_intercalate (by simpa using haddr) hfree]
    exact List.mem_append_right _ (List.mem_map_of_mem ha)
  · rw [lineAddress_scheme (hvalid a ha).1 (hvalid a ha).2]
    rfl

/-- The notes that an import reads with an address are not those of the contact. -/
theorem notesOf_ne {c : Contact} {n line : String}
    (hheading : isValidZcashAddress lib "Zcash addresses:" = false) (hcut : CutOf n (exportNote c))
    (hline : line ∈ lines n) (haddr : (lineAddress lib line).isSome) :
    notesOf lib n ≠ c.notes := by
  intro heq
  obtain ⟨hcount, hpieces⟩ := notesOf_lines lib n
  have hlt := noteCount_lt hline haddr
  obtain ⟨blanks, rest, hnote, hblanks, hrest⟩ := hcut
  rw [exportNote_eq] at hnote
  rw [heq] at hcount hpieces
  have hbegin : ∀ e, c.notes ≠ n ++ e := by
    intro e he
    have hle := length_splitOn_le n e
    rw [← he, hpieces] at hle
    -- Only the empty text has no more lines than it has notes.
    have hnone : noteCount lib n = 0 := by omega
    have hempty : notesOf lib n = "" := by
      rw [← length_filter_lines lib, List.length_eq_zero_iff] at hnone
      rw [notesOf, hnone, String.intercalate_nil]
    rw [← heq, hempty, eq_comm, String.append_eq_empty_iff] at he
    rw [he.1, lines_empty] at hline
    cases hline
  rcases append_eq_append hnote with ⟨x, hx, hending⟩ | ⟨e, he, -⟩
  · by_cases hempty : x = ""
    · rw [hempty, String.append_empty] at hx
      exact hbegin blanks hx.symm
    · obtain ⟨y, rfl, hy⟩ := heading_of_cut hending hempty hrest
      have hone := one_le_noteCount_heading hheading hy
      have hblank := noteCount_append_blank lib hblanks n
      rw [hx, ← hcount] at hblank
      split at hblank
      next hnotes =>
        rw [hnotes, String.empty_append, String.empty_append, noteCount_empty] at hblank
        omega
      next =>
        have hnewlines : c.notes ++ ("\n\n" ++ "Zcash addresses:" ++ y) =
            c.notes ++ "\n" ++ ("" ++ "\n" ++ ("Zcash addresses:" ++ y)) := by
          have htwo : "\n\n" = "\n" ++ "\n" := rfl
          rw [htwo]
          simp only [String.append_assoc, String.empty_append]
        rw [hnewlines, noteCount_newline, noteCount_newline, noteCount_empty] at hblank
        omega
  · exact hbegin (blanks ++ e) (by rw [he, String.append_assoc])

/-! ### What an import reads -/

section ReadBack
variable (vcards : VcardLib)

/-- What is read between the end marks of a card has the name and the note of its contact, or
    no note. The text is trimmed, and it is cut where the note has a mark of its own. -/
def ReadsBack (c : Contact) : Prop :=
  ∃ body tail, vcards.toString (exportCard c) = body ++ "END:VCARD" ++ tail ∧ Blank tail ∧
    ∀ block ∈ body.splitOn "END:VCARD", ∀ v,
      vcards.tryInto (trim block ++ "\nEND:VCARD") = some v →
      v.extensions = [] ∧
        (v.note = [] ∨ v.formattedName = [c.name] ∧ ∃ n, v.note = [n] ∧ CutOf n (exportNote c))

/-- A card without marks inside is read as it was written. -/
def RoundTrips (c : Contact) : Prop :=
  ∃ body tail, vcards.toString (exportCard c) = body ++ "END:VCARD" ++ tail ∧ Blank tail ∧
    body.splitOn "END:VCARD" = [body] ∧ ¬ Blank body ∧
    vcards.tryInto (trim body ++ "\nEND:VCARD") = some (exportCard c)

variable {vcards}

theorem ReadsBack.closed {c : Contact} (h : ReadsBack vcards c) :
    Closed (vcards.toString (exportCard c)) := by
  obtain ⟨body, tail, htext, htail, -⟩ := h
  exact ⟨body, tail, htext, htail⟩

theorem blank_newline : Blank "\n" := rfl

theorem exportContactsVcard_eq (db : Database) : exportContactsVcard vcards db =
    String.join ((listContacts db).map fun c => vcards.toString (exportCard c) ++ "\n") := by
  rw [exportContactsVcard, String.join_eq_foldl, List.foldl_map]
  simp only [String.append_assoc]

theorem mem_readCards_export {db : Database} (h : ∀ c ∈ listContacts db, ReadsBack vcards c)
    {card : Card} : card ∈ readCards lib vcards.tryInto (exportContactsVcard vcards db) ↔
      ∃ c ∈ listContacts db, card ∈ readCards lib vcards.tryInto
        (vcards.toString (exportCard c)) := by
  rw [exportContactsVcard_eq]
  generalize listContacts db = cs at h ⊢
  induction cs with
  | nil =>
    refine iff_of_false ?_ (by simp)
    rw [List.map_nil, String.join_nil, readCards_empty]
    exact List.not_mem_nil
  | cons c cs ih =>
    rw [List.forall_mem_cons] at h
    have hnewline := readCards_blank_append lib vcards.tryInto blank_newline
      (String.join (cs.map fun c => vcards.toString (exportCard c) ++ "\n"))
    rw [List.map_cons, String.join_cons, String.append_assoc, readCards_closed_append h.1.closed,
      hnewline, List.mem_append, ih h.2, List.exists_mem_cons_iff]

theorem card_of_export {c : Contact} {card : Card}
    (hheading : isValidZcashAddress lib "Zcash addresses:" = false) (h : ReadsBack vcards c)
    (hcard : card ∈ readCards lib vcards.tryInto (vcards.toString (exportCard c))) :
    card.name = c.name ∧ card.notes ≠ c.notes := by
  obtain ⟨body, tail, htext, htail, hread⟩ := h
  rw [htext, readCards_mark_append, readCards_blank htail, List.append_nil, readCards_eq,
    List.mem_filterMap] at hcard
  obtain ⟨block, hblock, hcard⟩ := hcard
  rw [readBlock] at hcard
  split at hcard
  next => cases hcard
  obtain ⟨v, hv, hcard⟩ := Option.bind_eq_some_iff.1 hcard
  obtain ⟨hext, hnote⟩ := hread block hblock v hv
  obtain ⟨-, ⟨line, hline, haddr⟩, rfl⟩ := (readCard_eq_some hext).1 hcard
  rcases hnote with hnote | ⟨hname, n, hnote, hcut⟩
  · rw [hnote, List.head?_nil, Option.getD_none, lines_empty] at hline
    cases hline
  · rw [hnote] at hline
    refine ⟨by rw [cardOf, hname]; rfl, ?_⟩
    rw [cardOf, hnote]
    exact notesOf_ne hheading hcut hline haddr

theorem mem_readCards_of_roundTrips {c : Contact} (hname : c.name ≠ "") (haddr : c.addresses ≠ [])
    (hvalid : ∀ a ∈ c.addresses, isValidZcashAddress lib a = true ∧
      ∀ ch ∈ a.toList, isWhitespace ch = false) (h : RoundTrips vcards c) :
    ∃ card, card ∈ readCards lib vcards.tryInto (vcards.toString (exportCard c)) := by
  obtain ⟨body, tail, htext, htail, hone, hbody, hread⟩ := h
  obtain ⟨line, hline, hsome⟩ := exists_address_line haddr hvalid
  have hnote : exportNote c ≠ "" := by
    intro hempty
    rw [hempty, lines_empty] at hline
    cases hline
  have hcard : exportCard c = ⟨[c.name], [exportNote c], []⟩ := by
    rw [exportCard, if_neg hnote]
  refine ⟨cardOf lib (exportCard c), ?_⟩
  rw [htext, readCards_mark_append, readCards_blank htail, List.append_nil, readCards_eq, hone,
    List.mem_filterMap]
  refine ⟨body, List.mem_cons_self, ?_⟩
  rw [readBlock, if_neg (show ¬ trim body = "" from hbody), hread, Option.bind_some, hcard]
  exact (readCard_eq_some rfl).2 ⟨hname, ⟨line, hline, hsome⟩, rfl⟩

end ReadBack

/-! ### What an import leaves -/

section Leaves
variable {lib : AddressLib} {network : NetworkType}

theorem edited_eq {id : ℕ} {name notes : String} {c : ContactRow} :
    edited id (some name) (some notes) c = if c.idContact = id then ⟨id, name, notes⟩ else c := by
  unfold edited
  split
  next h => rw [← h]; rfl
  next => rfl

def FromCard (cards : List Card) (r : ContactRow) : Prop :=
  ∃ card ∈ cards, r.name = card.name ∧ r.notes = card.notes

variable (lib network) in
/-- A card sets the notes of the row with its name, or it adds one. -/
theorem importCard_rows (db : Database) (card : Card) :
    (∃ c ∈ db.contacts.rows, c.name = card.name ∧
      (importCard lib network card db).2.contacts.rows = db.contacts.rows.map fun r =>
        if r.idContact = c.idContact then ⟨c.idContact, card.name, card.notes⟩ else r) ∨
    (importCard lib network card db).2.contacts.rows =
      db.contacts.rows ++ [newContact db card.name card.notes] := by
  rcases importCard_run lib network db card with
    ⟨c, hc, hname, db', r, hrun, hrows, -⟩ | ⟨hnew, hrun⟩
  · refine .inl ⟨c, hc, hname, ?_⟩
    rw [hrun, hrows]
    exact List.map_congr_left fun r _ => edited_eq
  · obtain ⟨db', hcreate, hrows, -⟩ := createContact_run lib network hnew card.notes
      card.addresses
    rw [hrun, hcreate]
    exact .inr hrows

theorem importCard_origin {cards : List Card} {card : Card} (hcard : card ∈ cards)
    {db db' : Database} (h : ∀ r ∈ db'.contacts.rows, r ∈ db.contacts.rows ∨ FromCard cards r) :
    ∀ r ∈ (importCard lib network card db').2.contacts.rows,
      r ∈ db.contacts.rows ∨ FromCard cards r := by
  intro r hr
  rcases importCard_rows lib network db' card with ⟨c, -, -, hrows⟩ | hrows
  · rw [hrows] at hr
    obtain ⟨s, hs, rfl⟩ := List.mem_map.1 hr
    split
    · exact .inr ⟨card, hcard, rfl, rfl⟩
    · exact h s hs
  · rw [hrows] at hr
    rcases List.mem_append.1 hr with hr | hr
    · exact h r hr
    · rw [List.mem_singleton.1 hr]
      exact .inr ⟨card, hcard, rfl, rfl⟩

/-- A row from a card stays one: only a card of its name changes it. -/
theorem importCard_keeps {cards : List Card} {card : Card} (hcard : card ∈ cards) {name : String}
    {db : Database} (h : ∃ r ∈ db.contacts.rows, r.name = name ∧ FromCard cards r) :
    ∃ r ∈ (importCard lib network card db).2.contacts.rows, r.name = name ∧ FromCard cards r := by
  obtain ⟨r, hr, hname, hfrom⟩ := h
  rcases importCard_rows lib network db card with ⟨c, hc, hcname, hrows⟩ | hrows
  · rw [hrows]
    refine ⟨_, List.mem_map_of_mem hr, ?_⟩
    split
    next hid =>
      have hrc : r = c := db.contacts.eq_of_clash hr hc (Or.inl hid)
      exact ⟨by rw [← hname, hrc, hcname], card, hcard, rfl, rfl⟩
    next => exact ⟨hname, hfrom⟩
  · rw [hrows]
    exact ⟨r, List.mem_append_left _ hr, hname, hfrom⟩

theorem importCard_leaves {cards : List Card} {card : Card} (hcard : card ∈ cards) (db : Database) :
    ∃ r ∈ (importCard lib network card db).2.contacts.rows,
      r.name = card.name ∧ FromCard cards r := by
  rcases importCard_rows lib network db card with ⟨c, hc, hcname, hrows⟩ | hrows
  · rw [hrows]
    refine ⟨_, List.mem_map_of_mem hc, ?_⟩
    rw [if_pos rfl]
    exact ⟨rfl, card, hcard, rfl, rfl⟩
  · rw [hrows]
    exact ⟨_, List.mem_append_right _ List.mem_cons_self, rfl, card, hcard, rfl, rfl⟩

theorem importCards_keeps {I : Database → Prop} {cards : List Card}
    (hstep : ∀ card ∈ cards, ∀ db, I db → I (importCard lib network card db).2) {db : Database}
    (h : I db) : I (importCards lib network cards db).2 := by
  induction cards generalizing db with
  | nil => exact h
  | cons card cards ih =>
    refine Prog.bind_keeps (hstep card List.mem_cons_self db h) fun _ t ht => ?_
    refine Prog.bind_keeps ?_ fun _ _ hu => hu
    exact ih (fun c hc => hstep c (List.mem_cons_of_mem card hc)) ht

variable (lib network) in
theorem importCards_origin (cards : List Card) (db : Database) :
    ∀ r ∈ (importCards lib network cards db).2.contacts.rows,
      r ∈ db.contacts.rows ∨ FromCard cards r :=
  importCards_keeps (I := fun t => ∀ r ∈ t.contacts.rows, r ∈ db.contacts.rows ∨ FromCard cards r)
    (fun _ hcard _ h => importCard_origin hcard h) fun _ hr => .inl hr

variable (lib network) in
theorem importCards_leaves (card : Card) (cards : List Card) (db : Database) :
    ∃ r ∈ (importCards lib network (card :: cards) db).2.contacts.rows,
      r.name = card.name ∧ FromCard (card :: cards) r := by
  let I (t : Database) : Prop := ∃ r ∈ t.contacts.rows,
    r.name = card.name ∧ FromCard (card :: cards) r
  have hfirst : I (importCard lib network card db).2 := importCard_leaves List.mem_cons_self db
  refine Prog.bind_keeps (I := I) hfirst fun _ t ht => ?_
  refine Prog.bind_keeps (I := I) ?_ fun _ _ hu => hu
  exact importCards_keeps (I := I)
    (fun c hc _ h => importCard_keeps (List.mem_cons_of_mem card hc) h) ht

end Leaves

/-! ### Export and import -/

section ExportImport
variable (lib : AddressLib) (vcards : VcardLib) (network : NetworkType) (db : Database)

def contents : List (String × String × List String) :=
  (listContacts db).map fun c => (c.name, c.notes, c.addresses)

/-- An import of the export gives an empty database the same contacts. -/
def Restores : Prop :=
  ∃ imported db', importContactsVcard lib vcards.tryInto network (exportContactsVcard vcards db)
    noContacts = (.ok imported, db') ∧ contents db' = contents db

/-- An import of its own export leaves a database as it is. -/
def Unchanged : Prop :=
  (importContactsVcard lib vcards.tryInto network (exportContactsVcard vcards db) db).2 = db

variable {lib vcards network db}

theorem notes_of_fromCard (hheading : isValidZcashAddress lib "Zcash addresses:" = false)
    (hreads : ∀ c ∈ listContacts db, ReadsBack vcards c) {r : ContactRow}
    (hr : r ∈ db.contacts.rows) :
    ¬ FromCard (readCards lib vcards.tryInto (exportContactsVcard vcards db)) r := by
  rintro ⟨card, hcard, hname, hnotes⟩
  obtain ⟨c, hc, hcard⟩ := (mem_readCards_export hreads).1 hcard
  obtain ⟨hcname, hne⟩ := card_of_export hheading (hreads c hc) hcard
  have hrow : c.row ∈ db.contacts.rows := mem_listContacts.1 (List.mem_map_of_mem hc)
  have heq : r = c.row := db.contacts.eq_of_clash hr hrow (Or.inr (hname.trans hcname))
  exact hne (by rw [← hnotes, heq]; rfl)

theorem mem_contents {r : ContactRow} (hr : r ∈ db.contacts.rows) :
    ∃ e ∈ contents db, e.1 = r.name ∧ e.2.1 = r.notes := by
  obtain ⟨c, hc, rfl⟩ := List.mem_map.1 (mem_listContacts.2 hr)
  exact ⟨_, List.mem_map_of_mem hc, rfl, rfl⟩

theorem row_of_contents {e : String × String × List String} (he : e ∈ contents db) :
    ∃ r ∈ db.contacts.rows, r.name = e.1 ∧ r.notes = e.2.1 := by
  obtain ⟨c, hc, rfl⟩ := List.mem_map.1 he
  exact ⟨c.row, mem_listContacts.1 (List.mem_map_of_mem hc), rfl, rfl⟩

theorem restores_iff (hheading : isValidZcashAddress lib "Zcash addresses:" = false)
    (hreads : ∀ c ∈ listContacts db, ReadsBack vcards c) :
    Restores lib vcards network db ↔ db.contacts.rows = [] := by
  constructor
  · rintro ⟨imported, db', hrun, hcontents⟩
    by_contra hne
    obtain ⟨r, hr⟩ := List.exists_mem_of_ne_nil _ hne
    obtain ⟨e, he, hname, hnotes⟩ := mem_contents hr
    obtain ⟨r', hr', hname', hnotes'⟩ := row_of_contents (hcontents ▸ he)
    have horigin := importCards_origin lib network
      (readCards lib vcards.tryInto (exportContactsVcard vcards db)) noContacts
    change importCards lib network _ noContacts = _ at hrun
    rw [hrun] at horigin
    obtain ⟨card, hcard, hcname, hcnotes⟩ := (horigin r' hr').resolve_left List.not_mem_nil
    exact notes_of_fromCard hheading hreads hr ⟨card, hcard, by rw [← hcname, hname', hname],
      by rw [← hcnotes, hnotes', hnotes]⟩
  · intro hempty
    have hlist := listContacts_eq_nil hempty
    have hcards : readCards lib vcards.tryInto (exportContactsVcard vcards db) = [] := by
      rw [exportContactsVcard, hlist, List.foldl_nil, readCards_empty]
    refine ⟨[], noContacts, ?_, ?_⟩
    · rw [importContactsVcard, hcards]
      rfl
    · rw [contents, contents, hlist, show listContacts noContacts = [] from listContacts_eq_nil rfl]

/-- Nothing changes exactly where no card is read. -/
theorem unchanged_iff (hheading : isValidZcashAddress lib "Zcash addresses:" = false)
    (hreads : ∀ c ∈ listContacts db, ReadsBack vcards c) :
    Unchanged lib vcards network db ↔
      readCards lib vcards.tryInto (exportContactsVcard vcards db) = [] := by
  unfold Unchanged importContactsVcard
  cases hcards : readCards lib vcards.tryInto (exportContactsVcard vcards db) with
  | nil => exact iff_of_true rfl rfl
  | cons card cards =>
    refine iff_of_false (fun heq => ?_) (List.cons_ne_nil card cards)
    obtain ⟨r, hr, -, hfrom⟩ := importCards_leaves lib network card cards db
    rw [heq] at hr
    exact notes_of_fromCard hheading hreads hr (hcards ▸ hfrom)

/-- The heading of the addresses comes back as a note: only a database without contacts comes
    through an export and an import. A contact with an address changes also where it is stored. -/
theorem contacts_export_import (lib : AddressLib) (vcards : VcardLib) (network : NetworkType)
    (db : Database) (hheading : isValidZcashAddress lib "Zcash addresses:" = false)
    (hreads : ∀ c ∈ listContacts db, ReadsBack vcards c) :
    (Restores lib vcards network db ∧ Unchanged lib vcards network db ↔ db.contacts.rows = []) ∧
    ∀ c ∈ listContacts db, c.name ≠ "" → c.addresses ≠ [] →
      (∀ a ∈ c.addresses, isValidZcashAddress lib a = true ∧
        ∀ ch ∈ a.toList, isWhitespace ch = false) → RoundTrips vcards c →
      ¬ Restores lib vcards network db ∧ ¬ Unchanged lib vcards network db := by
  refine ⟨⟨fun h => (restores_iff hheading hreads).1 h.1, fun hempty => ?_⟩,
    fun c hc hname haddr hvalid htrips => ?_⟩
  · refine ⟨(restores_iff hheading hreads).2 hempty, (unchanged_iff hheading hreads).2 ?_⟩
    rw [exportContactsVcard, listContacts_eq_nil hempty, List.foldl_nil, readCards_empty]
  · obtain ⟨card, hcard⟩ := mem_readCards_of_roundTrips hname haddr hvalid htrips
    have hmem := (mem_readCards_export hreads).2 ⟨c, hc, hcard⟩
    have hrow := mem_listContacts.1 (List.mem_map_of_mem (f := Contact.row) hc)
    refine ⟨fun h => ?_, fun h => ?_⟩
    · rw [(restores_iff hheading hreads).1 h] at hrow
      cases hrow
    · rw [(unchanged_iff hheading hreads).1 h] at hmem
      cases hmem

end ExportImport

/-! ### One contact -/

/-- The text of a card as the crate writes it, where line feeds are all that is escaped; only the
    text of the contact below is read. -/
def sampleVcards : VcardLib where
  toString v := "BEGIN:VCARD\r\nVERSION:4.0\r\n" ++
    String.join (v.formattedName.map fun name => "FN:" ++ name ++ "\r\n") ++
    String.join (v.note.map fun note => "NOTE:" ++ .ofList (note.toList.flatMap fun c =>
      if c = '\n' then ['\\', 'n'] else [c]) ++ "\r\n") ++ "END:VCARD\r\n"
  tryInto text :=
    if text = "BEGIN:VCARD\r\nVERSION:4.0\r\nFN:Ann\r\nNOTE:Zcash addresses:\\nzcash:t1" ++
      "\nEND:VCARD" then some ⟨["Ann"], ["Zcash addresses:\nzcash:t1"], []⟩ else none

def annDatabase : Database where
  contacts := ⟨[⟨1, "Ann", ""⟩], List.pairwise_singleton _ _⟩
  addresses := ⟨[⟨1, 1, "t1", "t1", 0, 0⟩], List.pairwise_singleton _ _⟩
  owned := fun a ha => ⟨_, List.mem_singleton_self _, by rw [List.mem_singleton.1 ha]⟩

theorem annDatabase_listed : listContacts annDatabase = [⟨1, "Ann", ["t1"], ""⟩] := by
  have hrows : contactRows annDatabase =
      [(⟨1, "Ann", ""⟩, some ⟨1, 1, "t1", "t1", 0, 0⟩)] := List.mergeSort_singleton _
  rw [listContacts, hrows]
  rfl

def annBody : String :=
  "BEGIN:VCARD\r\nVERSION:4.0\r\nFN:Ann\r\nNOTE:Zcash addresses:\\nzcash:t1\r\n"

theorem ann_printed : sampleVcards.toString (exportCard ⟨1, "Ann", ["t1"], ""⟩) =
    annBody ++ "END:VCARD" ++ "\r\n" := by
  rfl

theorem annBody_split : annBody.splitOn "END:VCARD" = [annBody] :=
  splitOn_of_not_infix (by decide) (by decide +kernel)

theorem ann_exportCard : exportCard ⟨1, "Ann", ["t1"], ""⟩ =
    ⟨["Ann"], ["Zcash addresses:\nzcash:t1"], []⟩ := by
  have hnote : exportNote ⟨1, "Ann", ["t1"], ""⟩ = "Zcash addresses:\nzcash:t1" := by
    rfl
  rw [exportCard, hnote]
  rfl

theorem annBody_read : sampleVcards.tryInto (trim annBody ++ "\nEND:VCARD") =
    some (exportCard ⟨1, "Ann", ["t1"], ""⟩) := by
  have htext : trim annBody ++ "\nEND:VCARD" =
      "BEGIN:VCARD\r\nVERSION:4.0\r\nFN:Ann\r\nNOTE:Zcash addresses:\\nzcash:t1" ++
        "\nEND:VCARD" := by rfl
  rw [ann_exportCard, htext]
  rfl

theorem annBody_not_blank : ¬ Blank annBody := by
  unfold Blank
  decide

theorem ann_roundTrips : RoundTrips sampleVcards ⟨1, "Ann", ["t1"], ""⟩ :=
  ⟨annBody, "\r\n", ann_printed, rfl, annBody_split, annBody_not_blank, annBody_read⟩

theorem ann_readsBack : ReadsBack sampleVcards ⟨1, "Ann", ["t1"], ""⟩ := by
  refine ⟨annBody, "\r\n", ann_printed, rfl, fun block hblock v hv => ?_⟩
  rw [annBody_split, List.mem_singleton] at hblock
  rw [hblock, annBody_read, ann_exportCard, Option.some.injEq] at hv
  subst hv
  refine ⟨rfl, .inr ⟨rfl, _, rfl, "", "", ?_, rfl, .inl rfl⟩⟩
  rfl

theorem t1_valid : isValidZcashAddress tLib "t1" = true ∧
    ∀ ch ∈ "t1".toList, isWhitespace ch = false := by
  have hall : "t1".toList.all (fun ch => !isWhitespace ch) = true := rfl
  exact ⟨rfl, by simpa using hall⟩

theorem annDatabase_not_exported :
    ¬ Restores tLib sampleVcards .main annDatabase ∧
      ¬ Unchanged tLib sampleVcards .main annDatabase :=
  (contacts_export_import tLib sampleVcards .main annDatabase rfl (by
    rw [annDatabase_listed]
    exact fun c hc => List.mem_singleton.1 hc ▸ ann_readsBack)).2 ⟨1, "Ann", ["t1"], ""⟩
    (by rw [annDatabase_listed]; exact List.mem_singleton_self _) (by decide) (by decide)
    (fun a ha => List.mem_singleton.1 ha ▸ t1_valid) ann_roundTrips

theorem ann_lines : lines "Zcash addresses:\nzcash:t1" = ["Zcash addresses:", "zcash:t1"] := by
  have hsplit : "Zcash addresses:\nzcash:t1".splitOn "\n" = ["Zcash addresses:"] ++ ["zcash:t1"] := by
    rw [splitOn_newline]
    rfl
  exact (lines_eq hsplit).trans (by decide)

theorem ann_readCards :
    readCards tLib sampleVcards.tryInto (exportContactsVcard sampleVcards annDatabase) =
      [⟨"Ann", ["t1"], "Zcash addresses:"⟩] := by
  have hexport : exportContactsVcard sampleVcards annDatabase =
      annBody ++ "END:VCARD" ++ "\r\n\n" := by
    rw [exportContactsVcard, annDatabase_listed, List.foldl_cons, List.foldl_nil, ann_printed]
    rfl
  have hcard : readCard tLib ⟨["Ann"], ["Zcash addresses:\nzcash:t1"], []⟩ =
      some ⟨"Ann", ["t1"], "Zcash addresses:"⟩ := by
    refine (readCard_eq_some rfl).2 ⟨by decide, ⟨"zcash:t1", ?_, by rfl⟩, ?_⟩
    · exact ann_lines ▸ List.mem_cons_of_mem _ List.mem_cons_self
    · have hnotes : notesOf tLib "Zcash addresses:\nzcash:t1" = "Zcash addresses:" := by
        rw [notesOf, ann_lines]
        rfl
      have haddr : (lines "Zcash addresses:\nzcash:t1").filterMap (lineAddress tLib) = ["t1"] := by
        rw [ann_lines]
        rfl
      change _ = Card.mk _ ((lines "Zcash addresses:\nzcash:t1").filterMap (lineAddress tLib))
        (notesOf tLib "Zcash addresses:\nzcash:t1")
      rw [hnotes, haddr]
      rfl
  have hblank : Blank "\r\n\n" := rfl
  rw [hexport, readCards_mark_append, readCards_blank hblank, List.append_nil, readCards_eq,
    annBody_split, List.filterMap_cons, readBlock, if_neg (show ¬ trim annBody = "" from
      annBody_not_blank), annBody_read, ann_exportCard, Option.bind_some, hcard]
  rfl

/-- The notes of the contact are empty in the database and the heading after an import. -/
theorem ann_notes_changed :
    (listContacts annDatabase).map Contact.notes = [""] ∧
    (importContactsVcard tLib sampleVcards.tryInto .main
      (exportContactsVcard sampleVcards annDatabase) noContacts).2.contacts.rows =
        [⟨1, "Ann", "Zcash addresses:"⟩] ∧
    ¬ (Restores tLib sampleVcards .main annDatabase ∧
      Unchanged tLib sampleVcards .main annDatabase) := by
  have himport : (importContactsVcard tLib sampleVcards.tryInto .main
      (exportContactsVcard sampleVcards annDatabase) noContacts).2.contacts.rows =
        [⟨1, "Ann", "Zcash addresses:"⟩] := by
    rw [importContactsVcard, ann_readCards]
    rfl
  refine ⟨by rw [annDatabase_listed]; rfl, himport, fun h => ?_⟩
  have hunchanged : readCards tLib sampleVcards.tryInto
      (exportContactsVcard sampleVcards annDatabase) = [] := (unchanged_iff rfl (by
    rw [annDatabase_listed]
    exact fun c hc => List.mem_singleton.1 hc ▸ ann_readsBack)).1 h.2
  rw [ann_readCards] at hunchanged
  cases hunchanged

end ZcashSdk.Contacts
