import ZcashSdk.Lib.Search

set_option autoImplicit false

/-!
# Paths in the log of SQLite

A message is a list of characters. `isAlphanumeric` is the standard library's Unicode
predicate, of which only its values on a few characters matter here.
-/
namespace ZcashSdk.SqliteLog
open Search

/-- Ends the path in the format `%s(%s) - %s` of the os layer. -/
def osErrorDelimiter : List Char := [')', ' ', '-', ' ']

def quote : List Char := ['"']

def dbSuffixes : List (List Char) :=
  [".sqlite3".toList, ".sqlite3-journal".toList, ".sqlite3-wal".toList, ".sqlite3-shm".toList]

def windowsDrive : List Char → Bool
  | a :: b :: c :: _ => a.isAlpha && b == ':' && (c == '\\' || c == '/')
  | _ => false

def isPathRoot (s : List Char) : Bool :=
  ['/'].isPrefixOf s || ['\\', '\\'].isPrefixOf s || windowsDrive s

def redacted (path : List Char) : List Char :=
  match dbSuffixes.find? fun suffix => suffix.isSuffixOf path with
  | some suffix => '*' :: suffix
  | none => "<path>".toList

section Messages
variable (isAlphanumeric : Char → Bool)

def isPathWordChar (c : Char) : Bool :=
  isAlphanumeric c || c == '.' || c == '_' || c == '-' || c == '~' || c == '/' || c == '\\'

/-- The first root that does not continue a word, with the character before it. -/
def pathStartFrom (previous : Option Char) : List Char → Option (ℕ × Option Char)
  | [] => none
  | c :: s =>
    if !previous.any (isPathWordChar isAlphanumeric) && isPathRoot (c :: s) then
      some (0, previous)
    else (pathStartFrom (some c) s).map fun (i, opener) => (i + 1, opener)

def pathStart (s : List Char) : Option (ℕ × Option Char) := pathStartFrom isAlphanumeric none s

/-- A path ends before the last delimiter of the kind that its opener asks for. -/
def pathLength (opener : Option Char) (path : List Char) : ℕ :=
  (rfind (if opener = some '"' then quote else osErrorDelimiter) path).getD path.length

theorem isPathRoot_iff {s : List Char} : isPathRoot s = true ↔
    ['/'] <+: s ∨ ['\\', '\\'] <+: s ∨
      ∃ a d t, a.isAlpha = true ∧ (d = '\\' ∨ d = '/') ∧ s = a :: ':' :: d :: t := by
  rw [isPathRoot, Bool.or_eq_true, Bool.or_eq_true, List.isPrefixOf_iff_prefix,
    List.isPrefixOf_iff_prefix, or_assoc]
  refine or_congr_right (or_congr_right ⟨fun h => ?_, ?_⟩)
  · match s with
    | a :: b :: d :: t =>
      simp only [windowsDrive, Bool.and_eq_true, Bool.or_eq_true, beq_iff_eq] at h
      exact ⟨a, d, t, h.1.1, h.2, by rw [h.1.2]⟩
  · rintro ⟨a, d, t, ha, hd, rfl⟩
    simp [windowsDrive, ha, hd]

theorem isPathRoot_cons {c : Char} {s : List Char} (h : isPathRoot (c :: s) = true) :
    c = '/' ∨ c = '\\' ∨ c.isAlpha = true := by
  rcases isPathRoot_iff.1 h with h | h | ⟨a, d, t, ha, -, heq⟩
  · exact .inl (List.cons_prefix_cons.1 h).1.symm
  · exact .inr (.inl (List.cons_prefix_cons.1 h).1.symm)
  · exact .inr (.inr ((List.cons.inj heq).1 ▸ ha))

theorem pathStartFrom_root {previous opener : Option Char} {s : List Char} {start : ℕ}
    (h : pathStartFrom isAlphanumeric previous s = some (start, opener)) :
    isPathRoot (s.drop start) = true := by
  induction s generalizing previous start with
  | nil => cases h
  | cons c s ih =>
    rw [pathStartFrom] at h
    split at h
    next hroot =>
      rw [Option.some.injEq, Prod.mk.injEq] at h
      rw [← h.1, List.drop_zero]
      exact (Bool.and_eq_true _ _ ▸ hroot).2
    next =>
      obtain ⟨⟨i, o⟩, hi, heq⟩ := Option.map_eq_some_iff.1 h
      rw [Prod.mk.injEq] at heq
      obtain ⟨rfl, rfl⟩ := heq
      exact ih hi

theorem pathLength_pos (opener : Option Char) {path : List Char} (h : isPathRoot path = true) :
    0 < pathLength opener path := by
  cases path with
  | nil => cases h
  | cons c s =>
    have hdelim : ∀ pat : List Char, pat = quote ∨ pat = osErrorDelimiter → ¬ pat <+: c :: s := by
      rintro pat (rfl | rfl) hpre
      · rw [← (List.cons_prefix_cons.1 hpre).1] at h
        exact absurd (isPathRoot_cons h) (by decide)
      · rw [← (List.cons_prefix_cons.1 hpre).1] at h
        exact absurd (isPathRoot_cons h) (by decide)
    rw [pathLength]
    cases hfind : rfind (if opener = some '"' then quote else osErrorDelimiter) (c :: s) with
    | none => exact Nat.succ_pos _
    | some i =>
      rw [Option.getD_some]
      by_contra hzero
      have hi : i = 0 := by omega
      subst hi
      refine hdelim _ ?_ (prefix_drop_rfind hfind).2
      split
      · exact .inl rfl
      · exact .inr rfl

/-- No character of a path survives except a known suffix of a database. -/
def redactPaths (message : List Char) : List Char :=
  match _h : pathStart isAlphanumeric message with
  | none => message
  | some (start, opener) =>
    let path := message.drop start
    let len := pathLength opener path
    message.take start ++ redacted (path.take len) ++ redactPaths (path.drop len)
termination_by message.length
decreasing_by
  have hroot := pathStartFrom_root isAlphanumeric _h
  have hpos := pathLength_pos opener hroot
  have hne : message.drop start ≠ [] := fun hnil => by
    rw [hnil] at hroot
    cases hroot
  have := List.length_pos_iff.2 hne
  simp only [List.length_drop] at this ⊢
  omega

theorem redactPaths_of_none {message : List Char} (h : pathStart isAlphanumeric message = none) :
    redactPaths isAlphanumeric message = message := by
  rw [redactPaths]
  split
  next => rfl
  next heq => rw [h] at heq; cases heq

theorem redactPaths_of_some {message : List Char} {start : ℕ} {opener : Option Char}
    (h : pathStart isAlphanumeric message = some (start, opener)) :
    redactPaths isAlphanumeric message =
      message.take start ++
        redacted ((message.drop start).take (pathLength opener (message.drop start))) ++
        redactPaths isAlphanumeric
          ((message.drop start).drop (pathLength opener (message.drop start))) := by
  rw [redactPaths]
  split
  next heq => rw [h] at heq; cases heq
  next heq =>
    rw [h, Option.some.injEq, Prod.mk.injEq] at heq
    obtain ⟨rfl, rfl⟩ := heq
    rfl

/-! ### Where a path is found -/

/-- A character that neither continues a word nor is a part of a root. -/
def isOpener (c : Char) : Bool :=
  !isPathWordChar isAlphanumeric c && c != ':' && !c.isAlpha

variable {isAlphanumeric}

theorem isOpener_iff {c : Char} : isOpener isAlphanumeric c = true ↔
    isPathWordChar isAlphanumeric c = false ∧ c ≠ ':' ∧ c.isAlpha = false := by
  simp [isOpener, and_assoc]

/-- Nothing that follows an opener belongs to a root before it. -/
theorem isPathRoot_append {c : Char} (hc : isOpener isAlphanumeric c = true) (s p : List Char) :
    isPathRoot (s ++ c :: p) = isPathRoot (s ++ [c]) := by
  obtain ⟨hword, hcolon, halpha⟩ := isOpener_iff.1 hc
  simp only [isPathWordChar, Bool.or_eq_false_iff, beq_eq_false_iff_ne] at hword
  obtain ⟨⟨-, hslash⟩, hback⟩ := hword
  match s with
  | [] =>
    cases p with
    | nil => rfl
    | cons d p => cases p <;> simp [isPathRoot, windowsDrive, List.isPrefixOf, hslash.symm, hback.symm, halpha]
  | [x] => cases p <;> simp [isPathRoot, windowsDrive, List.isPrefixOf, hback.symm, hcolon]
  | [x, y] => simp [isPathRoot, windowsDrive, List.isPrefixOf]
  | x :: y :: z :: t => simp [isPathRoot, windowsDrive, List.isPrefixOf]

theorem pathStartFrom_append {c : Char} (hc : isOpener isAlphanumeric c = true)
    {previous : Option Char} {s p : List Char}
    (hs : pathStartFrom isAlphanumeric previous (s ++ [c]) = none) (hp : isPathRoot p = true) :
    pathStartFrom isAlphanumeric previous (s ++ c :: p) = some (s.length + 1, some c) := by
  induction s generalizing previous with
  | nil =>
    have hword := (isOpener_iff.1 hc).1
    have hroot := isPathRoot_append hc [] p
    rw [List.nil_append, List.nil_append] at *
    rw [pathStartFrom] at hs ⊢
    rw [hroot]
    split at hs
    next => cases hs
    next hnot =>
      rw [if_neg hnot]
      cases p with
      | nil => cases hp
      | cons d p =>
        rw [pathStartFrom, if_pos (by simp [hword, hp])]
        rfl
  | cons x s ih =>
    rw [List.cons_append] at hs ⊢
    rw [pathStartFrom] at hs ⊢
    have hroot := isPathRoot_append hc (x :: s) p
    rw [List.cons_append, List.cons_append] at hroot
    rw [hroot]
    split at hs
    next => cases hs
    next hnot =>
      rw [if_neg hnot, ih (Option.map_eq_none_iff.1 hs)]
      rfl

/-! ### The shapes of a message -/

inductive Shape where
  /-- `pre(p) - text` -/
  | call (pre text : List Char)
  /-- `pre"p"suffix` -/
  | quoted (pre suffix : List Char)
  /-- `pre: p` -/
  | atEnd (pre : List Char)

namespace Shape

def before : Shape → List Char
  | call pre _ => pre ++ ['(']
  | quoted pre _ => pre ++ ['"']
  | atEnd pre => pre ++ [':', ' ']

def after : Shape → List Char
  | call _ text => osErrorDelimiter ++ text
  | quoted _ suffix => quote ++ suffix
  | atEnd _ => []

def message (shape : Shape) (p : List Char) : List Char := shape.before ++ p ++ shape.after

/-- The other parts hold no path and not the delimiter of the shape. -/
structure Plain (isAlphanumeric : Char → Bool) (shape : Shape) : Prop where
  before : pathStart isAlphanumeric shape.before = none
  after : pathStart isAlphanumeric shape.after = none
  delimiter : match shape with
    | call _ text => ¬ osErrorDelimiter <:+: text
    | quoted _ suffix => ¬ quote <:+: suffix
    | atEnd _ => True

/-- A path up to the end of a message is cut at its own last delimiter. -/
def Clear : Shape → List Char → Prop
  | atEnd _, p => ¬ osErrorDelimiter <:+: p
  | _, _ => True

end Shape

/-- The predicate is that of ASCII on the characters in front of a path. -/
def AsciiOpeners (isAlphanumeric : Char → Bool) : Prop :=
  ∀ c ∈ ['(', '"', ' '], isAlphanumeric c = false

theorem isOpener_of_ascii (h : AsciiOpeners isAlphanumeric) {c : Char} (hc : c ∈ ['(', '"', ' ']) :
    isOpener isAlphanumeric c = true := by
  have := h c hc
  simp only [List.mem_cons, List.not_mem_nil, or_false] at hc
  rcases hc with rfl | rfl | rfl <;> simp [isOpener, isPathWordChar, this]

/-! ### What becomes of a message -/

theorem isPathRoot_extend {p : List Char} (h : isPathRoot p = true) (t : List Char) :
    isPathRoot (p ++ t) = true := by
  rw [isPathRoot_iff] at h ⊢
  rcases h with h | h | ⟨a, d, s, ha, hd, rfl⟩
  · exact .inl (h.trans (List.prefix_append _ _))
  · exact .inr (.inl (h.trans (List.prefix_append _ _)))
  · exact .inr (.inr ⟨a, d, s ++ t, ha, hd, rfl⟩)

namespace Shape

def opener : Shape → Char
  | call .. => '('
  | quoted .. => '"'
  | atEnd .. => ' '

theorem exists_before (shape : Shape) : ∃ s, shape.before = s ++ [shape.opener] := by
  cases shape with
  | call pre _ => exact ⟨pre, rfl⟩
  | quoted pre _ => exact ⟨pre, rfl⟩
  | atEnd pre => exact ⟨pre ++ [':'], by simp [before, opener]⟩

theorem pathStart_message (hascii : AsciiOpeners isAlphanumeric) {shape : Shape}
    (hplain : shape.Plain isAlphanumeric) {p : List Char} (hp : isPathRoot p = true) :
    pathStart isAlphanumeric (shape.message p) =
      some (shape.before.length, some shape.opener) := by
  have hopener : isOpener isAlphanumeric shape.opener = true :=
    isOpener_of_ascii hascii (by cases shape <;> simp [opener])
  have hbefore := hplain.before
  obtain ⟨s, hs⟩ := shape.exists_before
  rw [hs] at hbefore
  rw [message, hs, List.append_assoc, List.append_assoc, List.singleton_append, pathStart,
    pathStartFrom_append hopener hbefore (isPathRoot_extend hp _)]
  simp

theorem pathLength_message {shape : Shape} (hplain : shape.Plain isAlphanumeric) {p : List Char}
    (hclear : shape.Clear p) : pathLength (some shape.opener) (p ++ shape.after) = p.length := by
  have hdelim := hplain.delimiter
  cases shape with
  | call pre text =>
    have hlast : rfind osErrorDelimiter (osErrorDelimiter ++ text) = some 0 := by
      refine rfind_self (by simp [osErrorDelimiter]) ?_
      simpa [osErrorDelimiter, List.infix_cons_iff] using hdelim
    rw [pathLength, if_neg (by simp [opener]), after, rfind_append hlast]
    rfl
  | quoted pre suffix =>
    have hlast : rfind quote (quote ++ suffix) = some 0 :=
      rfind_self (by simp [quote]) (by simpa [quote] using hdelim)
    rw [pathLength, if_pos (by rfl), after, rfind_append hlast]
    rfl
  | atEnd pre =>
    have hnone : rfind osErrorDelimiter p = none :=
      (rfind_eq_none (by simp [osErrorDelimiter])).2 hclear
    rw [pathLength, if_neg (by simp [opener]), after, List.append_nil, hnone]
    rfl

theorem redactPaths_message (hascii : AsciiOpeners isAlphanumeric) {shape : Shape}
    (hplain : shape.Plain isAlphanumeric) {p : List Char} (hp : isPathRoot p = true) :
    redactPaths isAlphanumeric (shape.message p) =
      shape.before ++
        redacted ((p ++ shape.after).take (pathLength (some shape.opener) (p ++ shape.after))) ++
        redactPaths isAlphanumeric
          ((p ++ shape.after).drop (pathLength (some shape.opener) (p ++ shape.after))) := by
  have hdrop : (shape.message p).drop shape.before.length = p ++ shape.after := by
    rw [message, List.append_assoc, List.drop_left]
  have htake : (shape.message p).take shape.before.length = shape.before := by
    rw [message, List.append_assoc, List.take_left]
  rw [redactPaths_of_some isAlphanumeric (pathStart_message hascii hplain hp), hdrop, htake]

theorem redactPaths_of_clear (hascii : AsciiOpeners isAlphanumeric) {shape : Shape}
    (hplain : shape.Plain isAlphanumeric) {p : List Char} (hp : isPathRoot p = true)
    (hclear : shape.Clear p) :
    redactPaths isAlphanumeric (shape.message p) = shape.message (redacted p) := by
  rw [redactPaths_message hascii hplain hp, pathLength_message hplain hclear, List.take_left,
    List.drop_left, redactPaths_of_none isAlphanumeric hplain.after]
  rfl

end Shape

theorem mem_redactPaths {c : Char} (hc : ∀ s, isPathRoot (c :: s) = false) (s : List Char) :
    c ∈ redactPaths isAlphanumeric (c :: s) := by
  cases h : pathStart isAlphanumeric (c :: s) with
  | none =>
    rw [redactPaths_of_none isAlphanumeric h]
    exact List.mem_cons_self
  | some x =>
    obtain ⟨start, opener⟩ := x
    have hpos : start ≠ 0 := by
      rintro rfl
      have := pathStartFrom_root isAlphanumeric h
      rw [List.drop_zero, hc] at this
      cases this
    obtain ⟨n, rfl⟩ := Nat.exists_eq_succ_of_ne_zero hpos
    rw [redactPaths_of_some isAlphanumeric h, List.take_succ_cons]
    simp

theorem not_mem_redacted (path : List Char) : ')' ∉ redacted path := by
  rw [redacted]
  split
  next suffix h =>
    have hmem := List.mem_of_find?_eq_some h
    revert hmem
    generalize suffix = s
    have : ∀ s ∈ dbSuffixes, ')' ∉ '*' :: s := by decide
    exact this s
  next => decide

/-- A path that is cut at its own delimiter leaks what follows. -/
theorem Shape.redactPaths_of_not_clear (hascii : AsciiOpeners isAlphanumeric) {shape : Shape}
    (hplain : shape.Plain isAlphanumeric) {p : List Char} (hp : isPathRoot p = true)
    (hclear : ¬ shape.Clear p) :
    redactPaths isAlphanumeric (shape.message p) ≠ shape.message (redacted p) := by
  cases shape with
  | call => exact absurd trivial hclear
  | quoted => exact absurd trivial hclear
  | atEnd pre =>
    intro heq
    rw [redactPaths_message hascii hplain hp, message, List.append_assoc, List.append_assoc,
      List.append_cancel_left_eq, after, List.append_nil, List.append_nil] at heq
    cases hfind : rfind osErrorDelimiter p with
    | none => exact hclear ((rfind_eq_none (by simp [osErrorDelimiter])).1 hfind)
    | some i =>
      have hlen : pathLength (some (atEnd pre).opener) p = i := by
        rw [pathLength, if_neg (by simp [opener]), hfind]
        rfl
      obtain ⟨r, hr⟩ := (prefix_drop_rfind hfind).2
      have hmem : ')' ∈ redactPaths isAlphanumeric (p.drop i) := by
        rw [← hr]
        exact mem_redactPaths (fun s => Bool.eq_false_iff.2 fun hroot =>
          absurd (isPathRoot_cons hroot) (by decide)) _
      rw [hlen] at heq
      exact not_mem_redacted p (heq ▸ List.mem_append_right _ hmem)

def SameSuffix (p q : List Char) : Prop := ∀ suffix ∈ dbSuffixes, suffix <:+ p ↔ suffix <:+ q

theorem SameSuffix.redacted_eq {p q : List Char} (h : SameSuffix p q) : redacted p = redacted q := by
  have hfind : dbSuffixes.find? (fun suffix => suffix.isSuffixOf p) =
      dbSuffixes.find? fun suffix => suffix.isSuffixOf q := by
    apply List.find?_congr
    intro suffix hmem
    rw [Bool.eq_iff_iff, List.isSuffixOf_iff_suffix, List.isSuffixOf_iff_suffix]
    exact h suffix hmem
  rw [redacted, redacted, hfind]

/-- Exactly a path up to the end of a message that holds the delimiter of the os layer is not
    redacted as a whole, and paths with the same suffix are otherwise told apart by nothing. -/
theorem redactPaths_faithful_iff (hascii : AsciiOpeners isAlphanumeric) {shape : Shape}
    (hplain : shape.Plain isAlphanumeric) {p : List Char} (hp : isPathRoot p = true) :
    (redactPaths isAlphanumeric (shape.message p) = shape.message (redacted p) ↔
        shape.Clear p) ∧
      ∀ q, isPathRoot q = true → shape.Clear p → shape.Clear q → SameSuffix p q →
        redactPaths isAlphanumeric (shape.message p) =
          redactPaths isAlphanumeric (shape.message q) := by
  refine ⟨⟨fun h => ?_, shape.redactPaths_of_clear hascii hplain hp⟩, fun q hq hcp hcq hsame => ?_⟩
  · by_contra hclear
    exact shape.redactPaths_of_not_clear hascii hplain hp hclear h
  · rw [Shape.redactPaths_of_clear hascii hplain hp hcp,
      Shape.redactPaths_of_clear hascii hplain hq hcq, hsame.redacted_eq]

end Messages

/-- A quoted path that holds a quote and the delimiter of the os layer. -/
theorem quoted_path_redacted :
    redactPaths Char.isAlphanum
        "attempt to open \"/tmp/Ann\"s) - x/w.sqlite3\" as file 1".toList =
      "attempt to open \"*.sqlite3\" as file 1".toList := by
  let shape : Shape := .quoted "attempt to open ".toList " as file 1".toList
  have hplain : shape.Plain Char.isAlphanum :=
    ⟨by decide, by decide, by decide⟩
  have hascii : AsciiOpeners Char.isAlphanum := by
    rw [AsciiOpeners, List.forall_mem_cons, List.forall_mem_cons, List.forall_mem_singleton]
    decide
  have hmessage : shape.message "/tmp/Ann\"s) - x/w.sqlite3".toList =
      "attempt to open \"/tmp/Ann\"s) - x/w.sqlite3\" as file 1".toList := by
    rfl
  have hredacted : shape.message (redacted "/tmp/Ann\"s) - x/w.sqlite3".toList) =
      "attempt to open \"*.sqlite3\" as file 1".toList := by
    rfl
  rw [← hmessage, ← hredacted]
  exact (redactPaths_faithful_iff hascii hplain (by rfl)).1.2 trivial

/-- A directory's name survives in a path up to the end of a message. -/
theorem unlinked_path_leaks :
    redactPaths Char.isAlphanum "file unlinked while open: /tmp/a) - Alice/w.sqlite3".toList =
        "file unlinked while open: <path>) - Alice/w.sqlite3".toList ∧
      redacted "/tmp/a) - Alice/w.sqlite3".toList = "*.sqlite3".toList := by
  have hstart : pathStart Char.isAlphanum
      "file unlinked while open: /tmp/a) - Alice/w.sqlite3".toList = some (26, some ' ') := by
    rfl
  have hrest : pathStart Char.isAlphanum ") - Alice/w.sqlite3".toList = none := by
    rfl
  refine ⟨?_, by rfl⟩
  rw [redactPaths_of_some _ hstart]
  have hlen : pathLength (some ' ')
      ("file unlinked while open: /tmp/a) - Alice/w.sqlite3".toList.drop 26) = 6 := by
    rfl
  have hdrop : ("file unlinked while open: /tmp/a) - Alice/w.sqlite3".toList.drop 26).drop 6 =
      ") - Alice/w.sqlite3".toList := by
    rfl
  rw [hlen, hdrop, redactPaths_of_none _ hrest]
  rfl

end ZcashSdk.SqliteLog
