import Mathlib

set_option autoImplicit false

/-!
# Texts in parts

A text is cut at every occurrence of a separator, from the left. Where the occurrences cannot
overlap, the parts of a text on both sides of a separator are those of the two sides.
-/
namespace ZcashSdk.Text

section Lists
variable {α : Type}

theorem modifyHead_self (l : List α) : l.modifyHead (fun a => a) = l :=
  congrFun List.modifyHead_id l

variable [DecidableEq α]

/-- The parts, after some elements that belong to a separator are passed over. -/
def partsFrom (sep : List α) : ℕ → List α → List (List α)
  | _, [] => [[]]
  | n + 1, _ :: s => partsFrom sep n s
  | 0, a :: s =>
    if sep <+: a :: s then [] :: partsFrom sep (sep.length - 1) s
    else (partsFrom sep 0 s).modifyHead (a :: ·)

def parts (sep s : List α) : List (List α) := partsFrom sep 0 s

variable {sep : List α}

@[simp] theorem parts_nil : parts sep [] = [[]] := rfl

theorem partsFrom_append (t s : List α) : partsFrom sep t.length (t ++ s) = parts sep s := by
  induction t with
  | nil => rfl
  | cons a t ih => exact ih

variable (sep) in
theorem parts_ne_nil (s : List α) : parts sep s ≠ [] := by
  suffices h : ∀ n, partsFrom sep n s ≠ [] from h 0
  induction s with
  | nil => exact fun n => by simp [partsFrom]
  | cons a s ih =>
    intro n
    cases n with
    | succ n => exact ih n
    | zero =>
      rw [partsFrom]
      split
      · exact List.cons_ne_nil _ _
      · simpa using ih 0

theorem parts_sep_append (hsep : sep ≠ []) (s : List α) :
    parts sep (sep ++ s) = [] :: parts sep s := by
  obtain ⟨a, t, rfl⟩ := List.exists_cons_of_ne_nil hsep
  have hpre : a :: t <+: a :: (t ++ s) := List.prefix_append (a :: t) s
  change partsFrom (a :: t) 0 (a :: (t ++ s)) = _
  rw [partsFrom, if_pos hpre]
  exact congrArg _ (partsFrom_append t s)

theorem parts_cons {a : α} {s : List α} (h : ¬ sep <+: a :: s) :
    parts sep (a :: s) = (parts sep s).modifyHead (a :: ·) := by
  unfold parts
  rw [partsFrom, if_neg h]

theorem parts_append {t s : List α} (h : ∀ a u, a :: u <:+ t → ¬ sep <+: a :: u ++ s) :
    parts sep (t ++ s) = (parts sep s).modifyHead (t ++ ·) := by
  induction t with
  | nil =>
    exact (modifyHead_self _).symm
  | cons a t ih =>
    have hhead : ¬ sep <+: a :: (t ++ s) := h a t (List.suffix_refl _)
    have htail : ∀ b u, b :: u <:+ t → ¬ sep <+: b :: u ++ s :=
      fun b u hu => h b u (hu.trans (List.suffix_cons a t))
    rw [List.cons_append, parts_cons hhead, ih htail,
      List.modifyHead_modifyHead]
    rfl

theorem parts_of_not_infix {t : List α} (h : ¬ sep <:+: t) : parts sep t = [t] := by
  have hno : ∀ a u, a :: u <:+ t → ¬ sep <+: a :: u ++ [] := fun a u hu hpre => by
    rw [List.append_nil] at hpre
    exact h (hpre.isInfix.trans hu.isInfix)
  have happend := parts_append hno
  rw [List.append_nil] at happend
  rw [happend, parts_nil, List.modifyHead_cons, List.append_nil]

theorem parts_of_length_lt {t : List α} (h : t.length < sep.length) : parts sep t = [t] :=
  parts_of_not_infix fun hin => absurd hin.length_le (by omega)

def Borderless (sep : List α) : Prop := ∀ a u, a :: u <:+ sep → a :: u <+: sep → a :: u = sep

omit [DecidableEq α] in
/-- A separator does not begin in front of one and end in it. -/
theorem not_prefix_append_sep (hborder : Borderless sep) {a : α} {t : List α}
    (h : ¬ sep <+: a :: t) (s : List α) : ¬ sep <+: a :: t ++ (sep ++ s) := by
  intro hlong
  rcases List.prefix_or_prefix_of_prefix hlong (List.prefix_append (a :: t) (sep ++ s)) with
    hpre | ⟨u, hu⟩
  · exact h hpre
  have hend : u <+: sep := by
    have hrest : u <+: sep ++ s := (List.prefix_append_right_inj (a :: t)).1 (by rwa [hu])
    exact List.prefix_of_prefix_length_le hrest (List.prefix_append sep s)
      (by rw [← hu, List.length_append]; omega)
  cases u with
  | nil =>
    rw [List.append_nil] at hu
    exact h (hu ▸ List.prefix_refl _)
  | cons b u =>
    have heq := congrArg List.length (hborder b u ⟨a :: t, hu⟩ hend)
    have hlen := congrArg List.length hu
    rw [List.length_append, List.length_cons (a := a)] at hlen
    omega

theorem parts_append_sep (hsep : sep ≠ []) (hborder : Borderless sep) (t s : List α) :
    parts sep (t ++ sep ++ s) = parts sep t ++ parts sep s := by
  induction hn : t.length using Nat.strong_induction_on generalizing t with
  | h n ih =>
    cases t with
    | nil => exact parts_sep_append hsep s
    | cons a t =>
      by_cases hpre : sep <+: a :: t
      · obtain ⟨u, hu⟩ := hpre
        have hlt : u.length < n := by
          have hlen := congrArg List.length hu
          have hpos := List.length_pos_iff.2 hsep
          rw [List.length_append] at hlen
          omega
        rw [← hu, List.append_assoc, List.append_assoc, parts_sep_append hsep,
          parts_sep_append hsep, ← List.append_assoc, ih u.length hlt u rfl]
        rfl
      · have hnot : ¬ sep <+: a :: (t ++ sep ++ s) := by
          have := not_prefix_append_sep hborder hpre s
          rwa [List.cons_append, ← List.append_assoc] at this
        have hlt : t.length < n := by rw [List.length_cons] at hn; omega
        rw [List.cons_append, List.cons_append, parts_cons hnot, parts_cons hpre,
          ih t.length hlt t rfl]
        obtain ⟨p, ps, hps⟩ := List.exists_cons_of_ne_nil (parts_ne_nil sep t)
        rw [hps]
        rfl

theorem parts_prefix {p : List α} {d : α} {q : List α} : parts (p ++ d :: q) p = [p] :=
  parts_of_length_lt (by rw [List.length_append, List.length_cons]; omega)

theorem parts_mismatch {p : List α} {c d a : α} {q r t : List α} (hne : c ≠ d)
    (h : p ++ c :: r = a :: t) :
    parts (p ++ d :: q) (a :: t) = (parts (p ++ d :: q) t).modifyHead (a :: ·) := by
  refine parts_cons fun hpre => ?_
  rw [← h, List.prefix_append_right_inj, List.cons_prefix_cons] at hpre
  exact hne hpre.1.symm

/-! ### Single elements -/

theorem parts_cons_self (c : α) (s : List α) : parts [c] (c :: s) = [] :: parts [c] s :=
  parts_sep_append (List.cons_ne_nil c []) s

theorem parts_singleton_cons {a c : α} (h : a ≠ c) (s : List α) :
    parts [c] (a :: s) = (parts [c] s).modifyHead (a :: ·) :=
  parts_cons fun hpre => h (List.cons_prefix_cons.1 hpre).1.symm

theorem parts_singleton (c : α) (s : List α) : parts [c] s = s.splitOn c := by
  induction s with
  | nil => rw [parts_nil, List.splitOn_nil]
  | cons a s ih =>
    rw [List.splitOn_cons_eq_if_modifyHead, ← ih]
    by_cases h : a = c
    · rw [h, parts_cons_self, if_pos (beq_self_eq_true c)]
    · rw [parts_singleton_cons h, if_neg (by simpa using h)]

theorem mem_of_mem_splitOn {a c : α} {s t : List α} (h : t ∈ s.splitOn c) (ha : a ∈ t) :
    a ∈ s ∧ a ≠ c := by
  induction s generalizing t with
  | nil =>
    rw [List.splitOn_nil, List.mem_singleton] at h
    exact absurd (h ▸ ha) List.not_mem_nil
  | cons b s ih =>
    obtain ⟨p, ps, hps⟩ := List.exists_cons_of_ne_nil (List.splitOn_ne_nil c s)
    rw [List.splitOn_cons_eq_if_modifyHead] at h
    rw [hps] at h ih
    split at h
    next =>
      rcases List.mem_cons.1 h with rfl | h
      · exact absurd ha List.not_mem_nil
      · exact (ih h ha).imp_left (List.mem_cons_of_mem b)
    next hbc =>
      rcases List.mem_cons.1 h with rfl | h
      · rcases List.mem_cons.1 ha with rfl | ha
        · exact ⟨List.mem_cons_self, by simpa using hbc⟩
        · exact (ih List.mem_cons_self ha).imp_left (List.mem_cons_of_mem b)
      · exact (ih (List.mem_cons_of_mem p h) ha).imp_left (List.mem_cons_of_mem b)

theorem splitOn_append_last (c : α) (s t : List α) : ∃ l p q qs, s.splitOn c = l ++ [p] ∧
    t.splitOn c = q :: qs ∧ (s ++ t).splitOn c = l ++ (p ++ q) :: qs := by
  obtain ⟨q, qs, hq⟩ := List.exists_cons_of_ne_nil (List.splitOn_ne_nil c t)
  suffices h : ∃ l p, s.splitOn c = l ++ [p] ∧ (s ++ t).splitOn c = l ++ (p ++ q) :: qs by
    obtain ⟨l, p, hs, hst⟩ := h
    exact ⟨l, p, q, qs, hs, hq, hst⟩
  induction s with
  | nil => exact ⟨[], [], List.splitOn_nil c, hq⟩
  | cons a s ih =>
    obtain ⟨l, p, hs, hst⟩ := ih
    rw [List.cons_append, List.splitOn_cons_eq_if_modifyHead, List.splitOn_cons_eq_if_modifyHead,
      hs, hst]
    split
    next => exact ⟨[] :: l, p, rfl, rfl⟩
    next =>
      cases l with
      | nil => exact ⟨[], a :: p, rfl, rfl⟩
      | cons x l => exact ⟨(a :: x) :: l, p, rfl, rfl⟩

end Lists

/-! ### Trimmed texts -/

section Trim
variable {α : Type} {p : α → Bool}

def trimWhile (p : α → Bool) (l : List α) : List α :=
  ((l.dropWhile p).reverse.dropWhile p).reverse

theorem dropWhile_blank {b : List α} (hb : ∀ a ∈ b, p a) : b.dropWhile p = [] :=
  List.dropWhile_eq_nil_iff.2 hb

theorem trimWhile_blank_append {b : List α} (hb : ∀ a ∈ b, p a) (l : List α) :
    trimWhile p (b ++ l) = trimWhile p l := by
  rw [trimWhile, List.dropWhile_append_of_pos hb, trimWhile]

theorem trimWhile_append_blank {b : List α} (hb : ∀ a ∈ b, p a) (l : List α) :
    trimWhile p (l ++ b) = trimWhile p l := by
  have hrev : ∀ a ∈ b.reverse, p a := fun a ha => hb a (List.mem_reverse.1 ha)
  rw [trimWhile, trimWhile, List.dropWhile_append]
  split
  next h => rw [List.isEmpty_iff.1 h, dropWhile_blank hb]
  next => rw [List.reverse_append, List.dropWhile_append_of_pos hrev]

theorem trimWhile_eq_nil {l : List α} : trimWhile p l = [] ↔ ∀ a ∈ l, p a := by
  constructor
  · intro h
    rw [trimWhile, List.reverse_eq_nil_iff, List.dropWhile_eq_nil_iff] at h
    rw [← List.dropWhile_eq_nil_iff]
    by_contra hne
    have hhead := List.head_dropWhile_not p hne
    rw [h _ (List.mem_reverse.2 (List.head_mem hne))] at hhead
    cases hhead
  · intro h
    rw [trimWhile, dropWhile_blank h]
    rfl

theorem trimWhile_eq_self {l : List α} (h : ∀ a ∈ l, p a = false) : trimWhile p l = l := by
  have hkeep : ∀ m : List α, (∀ a ∈ m, p a = false) → m.dropWhile p = m := by
    intro m hm
    cases m with
    | nil => rfl
    | cons a m => rw [List.dropWhile_cons, hm a List.mem_cons_self, if_neg Bool.false_ne_true]
  rw [trimWhile, hkeep l h, hkeep l.reverse fun a ha => h a (List.mem_reverse.1 ha),
    List.reverse_reverse]

end Trim

/-! ### Strings -/

section Strings
open String

theorem unoffsetBy_add (a b : ℕ) : Pos.Raw.unoffsetBy ⟨a + b⟩ ⟨b⟩ = ⟨a⟩ :=
  congrArg Pos.Raw.mk (Nat.add_sub_cancel a b)

/-- The loop of `splitOn`: `b` is read of a part, and `p` of a separator behind it. -/
theorem splitOnAux_eq {s sep : String} {i j : ℕ} {l b p r q : List Char} {o : List String}
    (hs : s = ofList (l ++ b ++ p ++ r)) (hsep : sep = ofList (p ++ q)) (hq : q ≠ [])
    (hi : i = utf8Len l + utf8Len b + utf8Len p) (hj : j = utf8Len p) :
    splitOnAux s sep ⟨utf8Len l⟩ ⟨i⟩ ⟨j⟩ o =
      o.reverse ++ ((parts (p ++ q) (p ++ r)).modifyHead (b ++ ·)).map ofList := by
  induction hn : p.length + r.length using Nat.strong_induction_on
    generalizing l b p r q i j o with
  | h n ihText =>
  induction q generalizing p r i j with
  | nil => exact absurd rfl hq
  | cons d q ihSep =>
  have hend := atEnd_of_valid (l ++ b ++ p) r
  have hget := get_of_valid (l ++ b ++ p) r
  have hgetSep := get_of_valid p (d :: q)
  rw [utf8Len_append, utf8Len_append, ← hi, ← hs] at hend hget
  rw [← hj, ← hsep] at hgetSep
  rw [splitOnAux]
  cases r with
  | nil =>
    have hextract := extract_of_valid l (b ++ p) []
    rw [utf8Len_append, ← Nat.add_assoc, ← hi, ← List.append_assoc, ← hs] at hextract
    rw [if_pos (hend.2 rfl), hextract, List.append_nil, parts_prefix]
    simp
  | cons c r =>
    rw [List.length_cons] at hn
    rw [if_neg (fun h => List.cons_ne_nil c r (hend.1 h)), hget, hgetSep, List.headD_cons,
      List.headD_cons]
    have hnext := next_of_valid (l ++ b ++ p) c r
    rw [utf8Len_append, utf8Len_append, ← hi, ← hs] at hnext
    have hnextSep := next_of_valid p d q
    rw [← hj, ← hsep] at hnextSep
    by_cases heq : c = d
    · subst heq
      have hendSep := atEnd_of_valid (p ++ [c]) q
      rw [utf8Len_append, utf8Len_cons, utf8Len_nil, Nat.zero_add, List.append_assoc,
        List.singleton_append, ← hj, ← hsep] at hendSep
      rw [if_pos (beq_self_eq_true c), hnext, hnextSep]
      cases q with
      | nil =>
        -- The separator is complete: what lies in front of it is a part.
        have hback : Pos.Raw.unoffsetBy ⟨i + c.utf8Size⟩ ⟨j + c.utf8Size⟩ =
            ⟨utf8Len l + utf8Len b⟩ := by
          rw [hi, ← hj, Nat.add_assoc, unoffsetBy_add]
        have hextract := extract_of_valid l b (p ++ c :: r)
        rw [← List.append_assoc, ← hs] at hextract
        have hparts := parts_sep_append (show p ++ [c] ≠ [] by simp) r
        rw [List.append_assoc, List.singleton_append] at hparts
        have ih := ihText r.length (by omega) (i := i + c.utf8Size) (j := 0)
          (l := l ++ b ++ p ++ [c]) (b := []) (p := []) (r := r) (o := ofList b :: o)
          (by simp [hs]) hsep (by simp) (by simp [hi, Nat.add_assoc]) rfl (Nat.zero_add _)
        have hstart : utf8Len (l ++ b ++ p ++ [c]) = i + c.utf8Size := by
          simp [hi, Nat.add_assoc]
        rw [hstart] at ih
        rw [if_pos (hendSep.2 rfl), hback, hextract, hparts]
        refine ih.trans ?_
        obtain ⟨x, xs, hx⟩ := List.exists_cons_of_ne_nil (parts_ne_nil (p ++ [c]) r)
        simp [hx]
      | cons e q =>
        rw [if_neg (fun h => List.cons_ne_nil e q (hendSep.1 h))]
        have hlen : (p ++ [c]).length + r.length = n := by
          rw [List.length_append, List.length_singleton]
          omega
        have ih := ihSep (i := i + c.utf8Size) (j := j + c.utf8Size) (p := p ++ [c]) (r := r)
          (by simp [hs]) (by simp [hsep]) (List.cons_ne_nil e q) (by simp [hi, Nat.add_assoc])
          (by simp [hj]) hlen
        rwa [List.append_assoc, List.append_assoc] at ih
    · -- The separator is tried again behind the first character it was tried at.
      obtain ⟨a, t, hat⟩ : ∃ a t, p ++ c :: r = a :: t := List.exists_cons_of_ne_nil (by simp)
      have hstep := next_of_valid (l ++ b) a t
      rw [← hat, ← List.append_assoc, ← hs, utf8Len_append] at hstep
      have hlen := congrArg List.length hat
      rw [List.length_append, List.length_cons, List.length_cons] at hlen
      have ih := ihText t.length (by omega) (i := utf8Len l + utf8Len b + a.utf8Size) (j := 0)
        (l := l) (b := b ++ [a]) (p := []) (r := t) (o := o) (by simp [hs, hat]) hsep
        (by simp) (by simp [Nat.add_assoc]) rfl (Nat.zero_add _)
      have hback : Pos.Raw.unoffsetBy ⟨i⟩ ⟨j⟩ = ⟨utf8Len l + utf8Len b⟩ := by
        rw [hi, hj, unoffsetBy_add]
      rw [if_neg (by simpa using heq), hback, hstep, hat, parts_mismatch heq hat]
      refine ih.trans ?_
      rw [List.modifyHead_modifyHead]
      simp [Function.comp_def]

theorem splitOn_eq {sep : String} (hsep : sep ≠ "") (s : String) :
    s.splitOn sep = (parts sep.toList s.toList).map ofList := by
  have hlist : sep = ofList ([] ++ sep.toList) := by simp
  have hloop := splitOnAux_eq (s := s) (i := 0) (j := 0) (l := []) (b := []) (p := [])
    (r := s.toList) (q := sep.toList) (o := []) (by simp) hlist (by simpa using hsep) rfl rfl
  have hsplit : s.splitOn sep = splitOnAux s sep ⟨0⟩ ⟨0⟩ ⟨0⟩ [] := by
    unfold splitOn
    rw [if_neg (by simpa using hsep)]
    rfl
  rw [hsplit]
  refine hloop.trans ?_
  simp [modifyHead_self]

theorem splitOn_of_not_infix {s sep : String} (hsep : sep ≠ "")
    (h : ¬ sep.toList <:+: s.toList) : s.splitOn sep = [s] := by
  rw [splitOn_eq hsep, parts_of_not_infix h, List.map_singleton, ofList_toList]

theorem splitOn_char_eq (c : Char) (s : String) :
    s.splitOn (singleton c) = (s.toList.splitOn c).map ofList := by
  rw [splitOn_eq (by simp), toList_singleton, parts_singleton]

theorem append_eq_append {a b c d : String} (h : a ++ b = c ++ d) :
    (∃ e, c = a ++ e ∧ b = e ++ d) ∨ ∃ e, a = c ++ e ∧ d = e ++ b := by
  have hlist := congrArg toList h
  rw [toList_append, toList_append, List.append_eq_append_iff] at hlist
  refine hlist.imp ?_ ?_ <;>
  · rintro ⟨e, hfst, hsnd⟩
    exact ⟨ofList e, toList_inj.1 (by simpa using hfst), toList_inj.1 (by simpa using hsnd)⟩

end Strings

end ZcashSdk.Text
