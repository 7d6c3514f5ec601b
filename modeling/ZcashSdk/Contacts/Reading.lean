import ZcashSdk.Contacts.Import
import ZcashSdk.Lib.Text

set_option autoImplicit false

/-!
# What is read of a vCard

A note is read line by line: a line is an address or it is kept. How many lines are kept is a
matter of counting, and the cards of a text are those between its end marks.
-/
namespace ZcashSdk.Contacts
open Text

/-! ### The lines of a note -/

section Lines
variable (lib : AddressLib)

def lineAddress (line : String) : Option String :=
  let trimmed := trim line
  if trimmed = "" then none
  else match (stripPrefix "zcash:" trimmed).filter (isValidZcashAddress lib) with
    | some addr => some addr
    | none => if isValidZcashAddress lib trimmed then some trimmed else none

def isNote (line : String) : Bool := decide (trim line ≠ "") && (lineAddress lib line).isNone

variable {lib}

theorem isNote_iff {line : String} :
    isNote lib line = true ↔ trim line ≠ "" ∧ lineAddress lib line = none := by
  simp [isNote]

theorem readLine_blank {line : String} (h : trim line = "") (acc : String × List String) :
    readLine lib acc line = acc := by
  unfold readLine
  simp [h]

theorem readLine_address {line addr : String} (h : lineAddress lib line = some addr)
    (notes : String) (addresses : List String) :
    readLine lib (notes, addresses) line = (notes, addresses ++ [addr]) := by
  unfold lineAddress at h
  unfold readLine
  grind

theorem readLine_note {line : String} (h : isNote lib line = true) (notes : String)
    (addresses : List String) :
    readLine lib (notes, addresses) line =
      (if notes = "" then line else notes ++ "\n" ++ line, addresses) := by
  obtain ⟨hblank, hnone⟩ := isNote_iff.1 h
  unfold lineAddress at hnone
  unfold readLine
  grind

theorem ne_empty_of_isNote {line : String} (h : isNote lib line = true) : line ≠ "" := by
  rintro rfl
  exact (isNote_iff.1 h).1 rfl

theorem intercalate_eq_empty {l : List String} (h : ∀ line ∈ l, line ≠ "") :
    "\n".intercalate l = "" ↔ l = [] := by
  cases l with
  | nil => simp
  | cons line l =>
    refine iff_of_false (fun hempty => h line List.mem_cons_self ?_) (List.cons_ne_nil _ _)
    cases l with
    | nil => rwa [String.intercalate_singleton] at hempty
    | cons => simp [String.append_eq_empty_iff] at hempty

theorem foldl_readLine (ls : List String) : ls.foldl (readLine lib) ("", []) =
    ("\n".intercalate (ls.filter (isNote lib)), ls.filterMap (lineAddress lib)) := by
  induction ls using List.reverseRecOn with
  | nil => rfl
  | append_singleton ls line ih =>
    rw [List.foldl_append, ih, List.foldl_cons, List.foldl_nil, List.filter_append,
      List.filterMap_append]
    cases haddr : lineAddress lib line with
    | some addr =>
      have hnot : isNote lib line = false := by simp [isNote, haddr]
      rw [readLine_address haddr]
      simp [hnot, haddr]
    | none =>
      by_cases hblank : trim line = ""
      · have hnot : isNote lib line = false := by simp [isNote, hblank]
        rw [readLine_blank hblank]
        simp [hnot, haddr]
      · have hnote : isNote lib line = true := isNote_iff.2 ⟨hblank, haddr⟩
        have hne : ∀ l ∈ ls.filter (isNote lib), l ≠ "" := fun l hl =>
          ne_empty_of_isNote (List.mem_filter.1 hl).2
        rw [readLine_note hnote]
        by_cases hnil : ls.filter (isNote lib) = []
        · simp [hnil, hnote, haddr]
        · rw [if_neg (mt (intercalate_eq_empty hne).1 hnil)]
          simp [String.intercalate_append_of_ne_nil hnil, hnote, haddr]

def notesOf (lib : AddressLib) (note : String) : String :=
  "\n".intercalate ((lines note).filter (isNote lib))

def cardOf (lib : AddressLib) (v : Vcard) : Card :=
  let note := v.note.head?.getD ""
  ⟨v.formattedName.head?.getD "", (lines note).filterMap (lineAddress lib), notesOf lib note⟩

theorem readCard_eq_some {v : Vcard} {card : Card} (hext : v.extensions = []) :
    readCard lib v = some card ↔ v.formattedName.head?.getD "" ≠ "" ∧
      (∃ line ∈ lines (v.note.head?.getD ""), (lineAddress lib line).isSome) ∧
      card = cardOf lib v := by
  have hnil : (cardOf lib v).addresses = [] ↔
      ¬ ∃ line ∈ lines (v.note.head?.getD ""), (lineAddress lib line).isSome := by
    simp [cardOf, Option.isSome_iff_ne_none]
  have hread : readCard lib v = if v.formattedName.head?.getD "" = "" ∨
      (cardOf lib v).addresses = [] then none else some (cardOf lib v) := by
    unfold readCard
    rw [hext, foldl_readLine]
    rfl
  rw [hread]
  split
  next h =>
    rw [hnil] at h
    refine iff_of_false (Option.some_ne_none card).symm fun hcard => ?_
    exact h.elim hcard.1 fun hnot => hnot hcard.2.1
  next h =>
    rw [hnil, not_or, not_not] at h
    rw [Option.some.injEq]
    exact ⟨fun heq => ⟨h.1, h.2, heq.symm⟩, fun hcard => hcard.2.2.symm⟩

/-! ### Counting lines -/

theorem trim_append_blank {b : List Char} (hb : ∀ c ∈ b, isWhitespace c = true) (l : List Char) :
    trim (.ofList (l ++ b)) = trim (.ofList l) := by
  unfold trim
  rw [String.toList_ofList, String.toList_ofList]
  exact congrArg String.ofList (trimWhile_append_blank hb l)

theorem trim_blank_append {b : List Char} (hb : ∀ c ∈ b, isWhitespace c = true) (l : List Char) :
    trim (.ofList (b ++ l)) = trim (.ofList l) := by
  unfold trim
  rw [String.toList_ofList, String.toList_ofList]
  exact congrArg String.ofList (trimWhile_blank_append hb l)

theorem trim_eq_empty {s : String} : trim s = "" ↔ ∀ c ∈ s.toList, isWhitespace c = true := by
  rw [trim, String.ofList_eq_empty_iff]
  exact trimWhile_eq_nil

theorem lineAddress_congr {s t : String} (h : trim s = trim t) :
    lineAddress lib s = lineAddress lib t := by
  unfold lineAddress
  rw [h]

theorem isNote_congr {s t : String} (h : trim s = trim t) : isNote lib s = isNote lib t := by
  unfold isNote
  rw [h, lineAddress_congr h]

theorem trim_stripReturn (line : String) : trim (stripReturn line) = trim line := by
  unfold stripReturn
  split
  next h =>
    obtain ⟨l, hl⟩ := List.getLast?_eq_some_iff.1 h
    have hline : line = .ofList (l ++ ['\r']) := by rw [← hl, String.ofList_toList]
    have hblank : ∀ c ∈ ['\r'], isWhitespace c = true := fun c hc => by
      rw [List.mem_singleton.1 hc]
      rfl
    rw [hl, List.dropLast_concat, hline, trim_append_blank hblank]
  next => rfl

def noteCount (lib : AddressLib) (s : String) : ℕ := (s.splitOn "\n").countP (isNote lib)

theorem splitOn_newline (s : String) : s.splitOn "\n" = (s.toList.splitOn '\n').map .ofList :=
  splitOn_char_eq '\n' s

theorem exists_splitOn_newline (s : String) : ∃ ls last, s.splitOn "\n" = ls ++ [last] := by
  have hne : s.splitOn "\n" ≠ [] := by
    rw [splitOn_newline, Ne, List.map_eq_nil_iff]
    exact List.splitOn_ne_nil _ _
  exact ⟨_, _, (List.dropLast_append_getLast hne).symm⟩

theorem lines_eq {s last : String} {ls : List String} (h : s.splitOn "\n" = ls ++ [last]) :
    lines s = ls.map stripReturn ++ if last = "" then [] else [last] := by
  unfold lines
  rw [h]
  by_cases hlast : last = "" <;> simp [hlast]

theorem splitOn_empty : "".splitOn "\n" = [""] := by
  rw [splitOn_newline]
  rfl

theorem lines_empty : lines "" = [] :=
  lines_eq (show "".splitOn "\n" = [] ++ [""] from splitOn_empty)

variable (lib) in
theorem length_filter_lines (s : String) :
    ((lines s).filter (isNote lib)).length = noteCount lib s := by
  obtain ⟨ls, last, hs⟩ := exists_splitOn_newline s
  have hstrip : (ls.map stripReturn).countP (isNote lib) = ls.countP (isNote lib) := by
    rw [List.countP_map]
    refine List.countP_congr fun l _ => ?_
    rw [Function.comp_apply, isNote_congr (trim_stripReturn l)]
  rw [lines_eq hs, ← List.countP_eq_length_filter, noteCount, hs, List.countP_append,
    List.countP_append, hstrip]
  split
  next h => rw [h]; rfl
  next => rfl

theorem newline_not_mem_of_mem_lines {s line : String} (h : line ∈ lines s) :
    '\n' ∉ line.toList := by
  have hpart : ∀ p ∈ s.splitOn "\n", '\n' ∉ p.toList := by
    rw [splitOn_newline]
    intro p hp hmem
    obtain ⟨cs, hcs, rfl⟩ := List.mem_map.1 hp
    rw [String.toList_ofList] at hmem
    exact (mem_of_mem_splitOn hcs hmem).2 rfl
  obtain ⟨ls, last, hs⟩ := exists_splitOn_newline s
  rw [lines_eq hs, List.mem_append] at h
  rw [hs] at hpart
  rcases h with h | h
  · obtain ⟨p, hp, rfl⟩ := List.mem_map.1 h
    have := hpart p (List.mem_append_left _ hp)
    unfold stripReturn
    split
    · rw [String.toList_ofList]
      exact fun hmem => this (List.mem_of_mem_dropLast hmem)
    · exact this
  · split at h
    · cases h
    · rw [List.mem_singleton.1 h]
      exact hpart last (List.mem_append_right _ List.mem_cons_self)

theorem splitOn_intercalate {ls : List String} (hne : ls ≠ [])
    (h : ∀ line ∈ ls, '\n' ∉ line.toList) : ("\n".intercalate ls).splitOn "\n" = ls := by
  have hfree : ∀ l ∈ ls.map String.toList, '\n' ∉ l := fun l hl => by
    obtain ⟨line, hline, rfl⟩ := List.mem_map.1 hl
    exact h line hline
  have hsplit := List.splitOn_intercalate '\n' hfree (by simpa using hne)
  rw [splitOn_newline, String.toList_intercalate]
  refine (congrArg (List.map String.ofList) hsplit).trans ?_
  simp [Function.comp_def]

variable (lib) in
theorem notesOf_lines (note : String) : noteCount lib (notesOf lib note) = noteCount lib note ∧
    ((notesOf lib note).splitOn "\n").length = max 1 (noteCount lib note) := by
  have hlength := length_filter_lines lib note
  have hfree : ∀ line ∈ (lines note).filter (isNote lib), '\n' ∉ line.toList := fun line hline =>
    newline_not_mem_of_mem_lines (List.mem_filter.1 hline).1
  have hall : ∀ line ∈ (lines note).filter (isNote lib), isNote lib line = true := fun line hline =>
    (List.mem_filter.1 hline).2
  unfold notesOf
  generalize (lines note).filter (isNote lib) = ls at hlength hfree hall
  rw [← hlength]
  by_cases hnil : ls = []
  · rw [hnil, String.intercalate_nil, noteCount, splitOn_empty]
    exact ⟨rfl, rfl⟩
  · have hpos := List.length_pos_iff.2 hnil
    rw [noteCount, splitOn_intercalate hnil hfree]
    exact ⟨List.countP_eq_length.2 hall, by omega⟩

theorem noteCount_empty : noteCount lib "" = 0 := by
  rw [noteCount, splitOn_empty]
  rfl

theorem splitOn_newline_append (s t : String) :
    (s ++ "\n" ++ t).splitOn "\n" = s.splitOn "\n" ++ t.splitOn "\n" := by
  have hlist : (s ++ "\n" ++ t).toList = s.toList ++ '\n' :: t.toList := by simp
  rw [splitOn_newline, hlist, List.splitOn_append_cons_self, List.map_append, ← splitOn_newline,
    ← splitOn_newline]

theorem noteCount_newline (s t : String) :
    noteCount lib (s ++ "\n" ++ t) = noteCount lib s + noteCount lib t := by
  rw [noteCount, splitOn_newline_append, List.countP_append]
  rfl

variable (lib) in
theorem noteCount_append_blank {b : String} (hb : trim b = "") (s : String) :
    noteCount lib (s ++ b) = noteCount lib s := by
  obtain ⟨ls, p, q, qs, hs, hbs, happend⟩ := splitOn_append_last '\n' s.toList b.toList
  have hblank : ∀ r ∈ q :: qs, ∀ c ∈ r, isWhitespace c = true := fun r hr c hc =>
    trim_eq_empty.1 hb c (mem_of_mem_splitOn (hbs ▸ hr) hc).1
  rw [List.forall_mem_cons] at hblank
  have hnone : ∀ r ∈ qs, isNote lib (.ofList r) = false := fun r hr => by
    have hempty : trim (.ofList r) = "" := trim_eq_empty.2 (by simpa using hblank.2 r hr)
    simp [isNote, hempty]
  have hlast : isNote lib (.ofList (p ++ q)) = isNote lib (.ofList p) :=
    isNote_congr (trim_append_blank hblank.1 p)
  have hrest : (qs.map String.ofList).countP (isNote lib) = 0 :=
    List.countP_eq_zero.2 (by simpa using hnone)
  rw [noteCount, noteCount, splitOn_newline, splitOn_newline, String.toList_append, happend, hs]
  simp only [List.map_append, List.map_cons, List.map_nil, List.countP_append, List.countP_cons,
    List.countP_nil, hrest, hlast]

theorem length_splitOn_le (s t : String) :
    (s.splitOn "\n").length ≤ ((s ++ t).splitOn "\n").length := by
  obtain ⟨ls, p, q, qs, hs, -, happend⟩ := splitOn_append_last '\n' s.toList t.toList
  rw [splitOn_newline, splitOn_newline, String.toList_append, happend, hs]
  simp

theorem noteCount_lt {s line : String} (hline : line ∈ lines s)
    (haddr : (lineAddress lib line).isSome) : noteCount lib s < (s.splitOn "\n").length := by
  obtain ⟨ls, last, hs⟩ := exists_splitOn_newline s
  have hpart : ∃ p ∈ s.splitOn "\n", trim p = trim line := by
    rw [hs]
    rw [lines_eq hs, List.mem_append] at hline
    rcases hline with hline | hline
    · obtain ⟨p, hp, rfl⟩ := List.mem_map.1 hline
      exact ⟨p, List.mem_append_left _ hp, (trim_stripReturn p).symm⟩
    · split at hline
      · cases hline
      · exact ⟨last, List.mem_append_right _ List.mem_cons_self, by rw [List.mem_singleton.1 hline]⟩
  obtain ⟨p, hp, htrim⟩ := hpart
  refine List.countP_lt_length_iff.2 ⟨p, hp, ?_⟩
  rw [isNote_congr htrim, isNote, Option.isNone_eq_false_iff.2 haddr, Bool.and_false]

theorem address_line_of_part {s p : String} (hp : p ∈ s.splitOn "\n")
    (haddr : (lineAddress lib p).isSome) : ∃ line ∈ lines s, (lineAddress lib line).isSome := by
  obtain ⟨ls, last, hs⟩ := exists_splitOn_newline s
  rw [hs, List.mem_append] at hp
  rw [lines_eq hs]
  rcases hp with hp | hp
  · refine ⟨_, List.mem_append_left _ (List.mem_map_of_mem hp), ?_⟩
    rwa [lineAddress_congr (trim_stripReturn p)]
  · rw [List.mem_singleton.1 hp] at haddr
    refine ⟨last, List.mem_append_right _ ?_, haddr⟩
    rw [if_neg]
    · exact List.mem_singleton_self last
    · rintro rfl
      cases haddr

end Lines

/-! ### The text of the cards -/

def Blank (s : String) : Prop := trim s = ""

def Closed (text : String) : Prop :=
  ∃ body tail, text = body ++ "END:VCARD" ++ tail ∧ Blank tail

section Blocks
variable (lib : AddressLib) (parse : String → Option Vcard)

def readBlock (block : String) : Option Card :=
  if trim block = "" then none
  else (parse (trim block ++ "\nEND:VCARD")).bind (readCard lib)

theorem readCards_eq (text : String) :
    readCards lib parse text = (text.splitOn "END:VCARD").filterMap (readBlock lib parse) := rfl

variable {lib parse}

theorem mark_borderless : Borderless "END:VCARD".toList := by
  have htails : ∀ t ∈ "END:VCARD".toList.tails, t ≠ [] → t <+: "END:VCARD".toList →
      t = "END:VCARD".toList := by decide
  exact fun a u hsuffix => htails (a :: u) ((List.mem_tails _ _).2 hsuffix) (List.cons_ne_nil a u)

theorem readCards_toList (text : String) : readCards lib parse text =
    ((parts "END:VCARD".toList text.toList).map String.ofList).filterMap (readBlock lib parse) := by
  rw [readCards_eq, splitOn_eq (by decide)]

theorem readBlock_blank_append {b : List Char} (hb : ∀ c ∈ b, isWhitespace c = true)
    (l : List Char) : readBlock lib parse (.ofList (b ++ l)) = readBlock lib parse (.ofList l) := by
  rw [readBlock, trim_blank_append hb, readBlock]

variable (lib parse) in
/-- The blanks behind a card belong to the next one. -/
theorem readCards_blank_append {b : String} (hb : Blank b) (text : String) :
    readCards lib parse (b ++ text) = readCards lib parse text := by
  have hblank := trim_eq_empty.1 hb
  have hno : ∀ a u, a :: u <:+ b.toList → ¬ "END:VCARD".toList <+: a :: u ++ text.toList := by
    intro a u hsuffix hpre
    have ha := hblank a (hsuffix.subset List.mem_cons_self)
    rw [← (List.cons_prefix_cons.1 hpre).1] at ha
    cases ha
  obtain ⟨p, ps, hps⟩ := List.exists_cons_of_ne_nil
    (parts_ne_nil "END:VCARD".toList text.toList)
  rw [readCards_toList, readCards_toList, String.toList_append, parts_append hno, hps,
    List.modifyHead_cons, List.map_cons, List.map_cons, List.filterMap_cons, List.filterMap_cons,
    readBlock_blank_append hblank]

theorem readCards_mark_append (body s : String) :
    readCards lib parse (body ++ "END:VCARD" ++ s) =
      readCards lib parse body ++ readCards lib parse s := by
  have hparts := parts_append_sep (by decide) mark_borderless body.toList s.toList
  rw [readCards_toList, readCards_toList, readCards_toList, String.toList_append,
    String.toList_append, hparts, List.map_append, List.filterMap_append]

theorem readCards_empty : readCards lib parse "" = [] := by
  rw [readCards_toList]
  rfl

theorem readCards_blank {b : String} (hb : Blank b) : readCards lib parse b = [] := by
  have happend := readCards_blank_append lib parse hb ""
  rwa [String.append_empty, readCards_empty] at happend

/-- The cards of texts are read text by text. -/
theorem readCards_closed_append {text : String} (h : Closed text) (more : String) :
    readCards lib parse (text ++ more) = readCards lib parse text ++ readCards lib parse more := by
  obtain ⟨body, tail, rfl, htail⟩ := h
  rw [String.append_assoc, readCards_mark_append, readCards_mark_append,
    readCards_blank_append lib parse htail, readCards_blank htail, List.append_nil]

end Blocks

end ZcashSdk.Contacts
