import ZcashSdk.Warp.ReaderSound

set_option autoImplicit false

/-!
# How the block reader ends

A delivered block leaves fewer blocks to read, a failure fewer failures until the reader gives
up, and in between it only moves towards its next reply. Past `endHeight` no block is left to
read, and the reader goes on for as long as the server sends linked blocks.
-/
namespace ZcashSdk.Warp
open Shielded Runs

variable {H : Type}

/-! ### What is counted -/

def Reader.delivers (r : Reader H) (e : ReaderEvent H) : Bool :=
  match r.control, e with
  | .select, .block b => decide (b.height = r.expectedHeight) && r.links b
  | _, _ => false

def Control.isReopening : Control H → Bool
  | .reopening => true
  | _ => false

def reopenings (a : ReaderArgs) : Reader H → List (ReaderEvent H) → ℕ
  | _, [] => 0
  | r, e :: es =>
    match r.step a e with
    | some t => (if t.control.isReopening then 1 else 0) + reopenings a t es
    | none => 0

def Reader.blocksRemaining (a : ReaderArgs) (r : Reader H) : ℕ :=
  a.endHeight + 1 - r.expectedHeight

def Reader.failuresLeft (r : Reader H) : ℕ := streamResumeDelays.length + 1 - r.failures

def Reader.measure (a : ReaderArgs) (r : Reader H) : ℕ ×ₗ ℕ :=
  toLex (r.blocksRemaining a, r.failuresLeft)

def After.place : After → ℕ
  | .select => 6
  | .resume _ => 1
  | .done _ => 1

def Reader.place (r : Reader H) : ℕ :=
  match r.control with
  | .done _ => 0
  | .sending _ ms after => after.place + ms.length
  | .select => if r.previousHeight = r.currentHeight then 3 else 4
  | .reopening => 5

/-- A delivered block lowers the measure, and no step that leaves it as it is goes back. -/
def Reader.Descends (a : ReaderArgs) (r : Reader H) (e : ReaderEvent H) : Prop :=
  ∀ t, r.step a e = some t → t.measure a < r.measure a ∨
    (r.delivers e = false ∧ t.measure a = r.measure a ∧ t.place < r.place)

/-! ### What a step moves -/

/-- A step delivers a block, fails, or comes nearer to one of these. -/
inductive Reader.Moves (r : Reader H) (e : ReaderEvent H) (t : Reader H) : Prop
  | delivered (hblock : r.delivers e = true) (hfailures : t.failures = 0)
      (hexpected : t.expectedHeight = r.expectedHeight + 1)
      (hcontrol : t.control.isReopening = false) (hplace : t.place ≤ 7)
  | failed (hblock : r.delivers e = false) (hfailures : t.failures = r.failures + 1)
      (hexpected : t.expectedHeight = r.expectedHeight)
      (hcontrol : t.control = .reopening ∧ t.failures ≤ 3 ∨ ∃ result, t.control = .done result)
  | moved (hblock : r.delivers e = false) (hfailures : t.failures = r.failures)
      (hexpected : t.expectedHeight = r.expectedHeight)
      (hcontrol : t.control.isReopening = false) (hplace : t.place < r.place)

theorem Reader.place_select_le {r : Reader H} (hc : r.control = .select) :
    3 ≤ r.place ∧ r.place ≤ 4 := by
  unfold Reader.place
  rw [hc]
  dsimp only
  split <;> omega

theorem Reader.resume_counts (r : Reader H) (error : String) :
    (r.resume error).failures = r.failures + 1 ∧
      (r.resume error).expectedHeight = r.expectedHeight ∧
      ((r.resume error).control = .reopening ∧ r.failures + 1 ≤ 3 ∨
        ∃ result, (r.resume error).control = .done result) := by
  unfold Reader.resume
  dsimp only
  split
  · exact ⟨rfl, rfl, .inr ⟨_, rfl⟩⟩
  · rename_i delay hdelay
    have hlt : r.failures + 1 - 1 < 3 := (List.getElem?_eq_some_iff.1 hdelay).1
    exact ⟨rfl, rfl, .inl ⟨rfl, by omega⟩⟩

theorem flushChunk_length (chunk : List (CompactBlock H)) : (flushChunk chunk).length ≤ 1 := by
  cases chunk <;> simp [flushChunk]

section Moves
variable {a : ReaderArgs} {r x t : Reader H} {e : ReaderEvent H}

theorem Reader.Moves.resume (hblock : r.delivers e = false) (hfailures : x.failures = r.failures)
    (hexpected : x.expectedHeight = r.expectedHeight) (error : String) :
    r.Moves e (x.resume error) := by
  obtain ⟨hf, he, hc⟩ := x.resume_counts error
  refine .failed hblock (by rw [hf, hfailures]) (he.trans hexpected) ?_
  rcases hc with ⟨hc, hle⟩ | hc
  · exact .inl ⟨hc, by omega⟩
  · exact .inr hc

theorem Reader.Moves.send (hblock : r.delivers e = false) (hfailures : x.failures = r.failures)
    (hexpected : x.expectedHeight = r.expectedHeight) (ms : List (BlockMessage H)) (after : After)
    (hplace : after.place + ms.length ≤ r.place) : r.Moves e (x.send ms after) := by
  cases ms with
  | cons m ms =>
    refine .moved hblock hfailures hexpected rfl ?_
    rw [List.length_cons] at hplace
    change after.place + ms.length < r.place
    omega
  | nil =>
    cases after with
    | resume error => exact .resume hblock hfailures hexpected error
    | done result =>
      refine .moved hblock hfailures hexpected rfl ?_
      change 0 < r.place
      exact lt_of_lt_of_le Nat.one_pos hplace
    | select =>
      refine .moved hblock hfailures hexpected rfl ?_
      have hle := (Reader.place_select_le (r := x.send [] .select) rfl).2
      change 6 ≤ r.place at hplace
      omega

theorem Reader.delivers_of_ne (he : ∀ b, e ≠ .block b) : r.delivers e = false := by
  unfold Reader.delivers
  split
  · rename_i b _
    exact absurd rfl (he b)
  · rfl

theorem Reader.Moves.fail (hc : r.control = .select) (he : ∀ b, e ≠ .block b) (error : String) :
    r.Moves e (r.fail a error) := by
  have hlength := flushChunk_length r.chunk
  have hplace := (Reader.place_select_le hc).1
  refine Reader.Moves.send (r := r) (x := { r with chunk := [] }) (Reader.delivers_of_ne he) rfl
    rfl _ _ ?_
  have hafter : ∀ after : After, after.place = 1 → after.place + (flushChunk r.chunk).length ≤ r.place :=
    fun after h => by omega
  split
  · exact hafter _ rfl
  · exact hafter _ rfl

theorem Reader.Moves.accept {b : CompactBlock H} (hblock : r.delivers e = true) :
    r.Moves e (r.accept a b) := by
  have hsend : ∀ (y : Reader H) (ms : List (BlockMessage H)), y.failures = 0 →
      y.expectedHeight = r.expectedHeight + 1 → ms.length ≤ 2 → r.Moves e (y.send ms .select) := by
    intro y ms hfailures hexpected hlength
    cases ms with
    | nil =>
      have hle := (Reader.place_select_le (r := y.send [] .select) rfl).2
      exact .delivered hblock hfailures hexpected rfl (by omega)
    | cons m ms =>
      refine .delivered hblock hfailures hexpected rfl ?_
      rw [List.length_cons] at hlength
      change 6 + ms.length ≤ 7
      omega
  have hheader : (r.missingHeader b).length ≤ 1 := by
    unfold Reader.missingHeader
    split <;> simp
  have hflush := flushChunk_length (r.chunk ++ [b])
  unfold Reader.accept
  dsimp only
  split
  · refine hsend _ _ rfl rfl ?_
    rw [List.length_append]
    omega
  · exact hsend _ _ rfl rfl (by omega)

theorem Reader.Moves.onBlock (hc : r.control = .select) (b : CompactBlock H) :
    r.Moves (.block b) (r.onBlock a b) := by
  have hdelivers : r.delivers (.block b) =
      (decide (b.height = r.expectedHeight) && r.links b) := by
    unfold Reader.delivers
    rw [hc]
  have hlength := flushChunk_length r.chunk
  have hplace := (Reader.place_select_le hc).1
  unfold Reader.onBlock
  split_ifs with hheight hlinks
  · have hblock : r.delivers (.block b) = false := by simp [hdelivers, hheight]
    refine Reader.Moves.send (r := r) (x := { r with chunk := [] }) hblock rfl rfl _ _ ?_
    change 1 + _ ≤ _
    omega
  · exact .accept (by simp [hdelivers, not_not.1 hheight, hlinks])
  · have hblock : r.delivers (.block b) = false := by simp [hdelivers, hlinks]
    refine Reader.Moves.send (r := r) (x := { r with chunk := [], currentHeight := u32 b.height })
      hblock rfl rfl _ _ ?_
    rw [List.length_append]
    change 1 + (_ + 1) ≤ _
    omega

theorem After.place_pos (after : After) : 0 < after.place := by
  cases after <;> simp [After.place]

theorem Reader.step_moves (hs : r.step a e = some t) : r.Moves e t := by
  unfold Reader.step at hs
  split at hs <;> simp only [Option.some.injEq, reduceCtorEq] at hs <;> subst hs
  case h_1 hc =>
    have hblock : r.delivers .cancel = false := Reader.delivers_of_ne fun b h => nomatch h
    refine .moved hblock rfl rfl rfl ?_
    exact lt_of_lt_of_le (by simp [Reader.place]) (Reader.place_select_le hc).1
  case h_2 hc =>
    have hblock : r.delivers .tick = false := Reader.delivers_of_ne fun b h => nomatch h
    unfold Reader.onTick
    split
    · rename_i hprogress
      refine .moved hblock rfl rfl (by simp [hc, Control.isReopening]) ?_
      simp [Reader.place, hc, hprogress]
    · exact Reader.Moves.fail (e := .tick) hc (fun b h => nomatch h) _
  case h_3 b hc => exact .onBlock hc b
  case h_4 error hc =>
    exact Reader.Moves.fail (e := .streamError error) hc (fun b h => nomatch h) error
  case h_5 hc =>
    have hblock : r.delivers .streamEnd = false := Reader.delivers_of_ne fun b h => nomatch h
    unfold Reader.onEnd
    split
    · have hlength := flushChunk_length r.chunk
      have hplace := (Reader.place_select_le hc).1
      refine Reader.Moves.send (r := r) (x := { r with chunk := [] }) hblock rfl rfl _ _ ?_
      change 1 + _ ≤ _
      omega
    · exact Reader.Moves.fail (e := .streamEnd) hc (fun b h => nomatch h) _
  case h_6 m ms after hc =>
    have hblock : r.delivers .sent = false := Reader.delivers_of_ne fun b h => nomatch h
    refine Reader.Moves.send (r := r) (x := { r with sent := r.sent ++ [m] }) hblock rfl rfl _ _
      (le_of_eq ?_)
    simp [Reader.place, hc]
  case h_7 m ms after hc =>
    have hblock : r.delivers .closed = false := Reader.delivers_of_ne fun b h => nomatch h
    have hpos := after.place_pos
    refine .moved hblock rfl rfl rfl ?_
    simp only [Reader.place, hc]
    omega
  case h_8 hc =>
    have hblock : r.delivers .cancel = false := Reader.delivers_of_ne fun b h => nomatch h
    refine .moved hblock rfl rfl rfl ?_
    simp [Reader.place, hc]
  case h_9 hc =>
    have hle := (Reader.place_select_le (r := { r with control := .select }) rfl).2
    have hplace : r.place = 5 := by simp [Reader.place, hc]
    have hblock : r.delivers .reopened = false := Reader.delivers_of_ne fun b h => nomatch h
    exact .moved hblock rfl rfl rfl (by omega)
  case h_10 error hc =>
    have hblock : r.delivers (.refused error) = false :=
      Reader.delivers_of_ne fun b h => nomatch h
    exact .resume hblock rfl rfl error

end Moves

/-! ### Failures and descent -/

section Descent
variable {a : ReaderArgs} {r t : Reader H} {e : ReaderEvent H} {es : List (ReaderEvent H)}

structure Reader.Counted (r : Reader H) : Prop where
  failures : (∀ result, r.control ≠ .done result) → r.failures ≤ 3
  place : r.place ≤ 7

theorem Reader.init_counted (a : ReaderArgs) : (a.init : Reader H).Counted := by
  refine ⟨fun _ => Nat.zero_le 3, ?_⟩
  exact (Reader.place_select_le (r := a.init) rfl).2.trans (by decide)

theorem Reader.step_done (hc : ∃ result, r.control = .done result) : r.step a e = none := by
  obtain ⟨result, hc⟩ := hc
  simp [Reader.step, hc]

theorem Reader.not_done_of_step (hs : r.step a e = some t) (result : Except SyncError Unit) :
    r.control ≠ .done result := by
  intro hc
  rw [Reader.step_done ⟨result, hc⟩] at hs
  cases hs

theorem Reader.step_counted (hr : r.Counted) (hs : r.step a e = some t) : t.Counted := by
  have hle := hr.failures (Reader.not_done_of_step hs)
  have hplace := hr.place
  cases Reader.step_moves hs with
  | delivered _ hfailures _ _ hplace' => exact ⟨fun _ => by omega, hplace'⟩
  | failed _ _ _ hcontrol =>
    rcases hcontrol with ⟨hcontrol, hle'⟩ | ⟨result, hcontrol⟩
    · exact ⟨fun _ => hle', by simp [Reader.place, hcontrol]⟩
    · exact ⟨fun hnot => absurd hcontrol (hnot result), by simp [Reader.place, hcontrol]⟩
  | moved _ hfailures _ _ hplace' => exact ⟨fun _ => by omega, by omega⟩

theorem Reader.run_counted (hrun : run (Reader.step a) a.init es = some r) : r.Counted :=
  run_inv (Reader.step a) Reader.Counted (fun _ _ _ => Reader.step_counted) (Reader.init_counted a)
    hrun

theorem reopenings_of_done (hc : ∃ result, r.control = .done result) :
    reopenings a r es = 0 := by
  cases es with
  | nil => rfl
  | cons e es => rw [reopenings, Reader.step_done hc]

/-- Each reopening counts as a failure until a block is delivered. -/
theorem reopenings_le (hr : r.Counted) (hc : ∀ result, r.control ≠ .done result)
    (hes : AllSteps (Reader.step a) (fun r e => r.delivers e = false) r es) :
    r.failures + reopenings a r es ≤ 3 := by
  induction es generalizing r with
  | nil => exact hr.failures hc
  | cons e es ih =>
    have hle := hr.failures hc
    rw [reopenings]
    cases hs : r.step a e with
    | none => exact hle
    | some t =>
      dsimp only
      have ht := Reader.step_counted hr hs
      have hrest := ih ht
      by_cases hdone : ∃ result, t.control = .done result
      · obtain ⟨result, hdone'⟩ := hdone
        rw [reopenings_of_done ⟨result, hdone'⟩, hdone']
        exact hle
      · have hsum := hrest (fun result h => hdone ⟨result, h⟩) (hes.2 t hs)
        cases Reader.step_moves hs with
        | delivered hblock =>
          rw [hes.1] at hblock
          cases hblock
        | failed _ hfailures _ hcontrol =>
          have hreopening := (hcontrol.resolve_right hdone).1
          rw [hreopening]
          change r.failures + (1 + _) ≤ 3
          omega
        | moved _ hfailures _ hcontrol =>
          rw [hcontrol]
          change r.failures + (0 + _) ≤ 3
          omega

theorem Reader.oversteps_iff :
    r.Oversteps a e ↔ r.delivers e = true ∧ a.endHeight < r.expectedHeight := by
  constructor
  · rintro ⟨b, rfl, hc, hheight, hlinks, hlt⟩
    refine ⟨?_, hheight ▸ hlt⟩
    simp [Reader.delivers, hc, hheight, hlinks]
  · rintro ⟨hblock, hlt⟩
    unfold Reader.delivers at hblock
    split at hblock
    · rename_i b hc
      rw [Bool.and_eq_true, decide_eq_true_eq] at hblock
      exact ⟨b, rfl, hc, hblock.1, hblock.2, by omega⟩
    · cases hblock

/-- The measure of a step that delivers a block falls exactly when the block is of the range. -/
theorem Reader.descends_iff (hr : r.Counted) : r.Descends a e ↔ ¬ r.Oversteps a e := by
  have hthree : streamResumeDelays.length = 3 := rfl
  rw [Reader.oversteps_iff]
  constructor
  · rintro hdescends ⟨hblock, hlt⟩
    cases hs : r.step a e with
    | none =>
      obtain ⟨b, rfl, hc, -⟩ := Reader.oversteps_iff.2 ⟨hblock, hlt⟩
      simp [Reader.step, hc] at hs
    | some t =>
      rcases hdescends t hs with hless | ⟨hnot, -⟩
      · cases Reader.step_moves hs with
        | delivered _ hfailures hexpected =>
          rw [Reader.measure, Reader.measure, Prod.Lex.toLex_lt_toLex] at hless
          simp only [Reader.blocksRemaining, Reader.failuresLeft] at hless
          omega
        | failed hnot | moved hnot =>
          rw [hblock] at hnot
          cases hnot
      · rw [hblock] at hnot
        cases hnot
  · intro hwithin t hs
    have hle := hr.failures (Reader.not_done_of_step hs)
    cases Reader.step_moves hs with
    | delivered hblock hfailures hexpected =>
      have hrange : r.expectedHeight ≤ a.endHeight := by
        by_contra hgt
        exact hwithin ⟨hblock, by omega⟩
      refine .inl (Prod.Lex.toLex_lt_toLex.2 (.inl ?_))
      simp only [Reader.blocksRemaining]
      omega
    | failed _ hfailures hexpected =>
      refine .inl (Prod.Lex.toLex_lt_toLex.2 (.inr ⟨?_, ?_⟩))
      · simp only [Reader.blocksRemaining, hexpected]
      · simp only [Reader.failuresLeft]
        omega
    | moved hblock hfailures hexpected _ hplace =>
      refine .inr ⟨hblock, ?_, hplace⟩
      simp only [Reader.measure, Reader.blocksRemaining, Reader.failuresLeft, hexpected, hfailures]

/-- A bound of the turns that are left: eight for each failure, of which each block allows four. -/
def Reader.turnsLeft (a : ReaderArgs) (r : Reader H) : ℕ :=
  (5 * r.blocksRemaining a + r.failuresLeft) * 8 + r.place

theorem Reader.turnsLeft_step (hr : r.Counted) (hwithin : ¬ r.Oversteps a e)
    (hs : r.step a e = some t) : t.turnsLeft a < r.turnsLeft a := by
  have hthree : streamResumeDelays.length = 3 := rfl
  have hle := hr.failures (Reader.not_done_of_step hs)
  have hplace := (Reader.step_counted hr hs).place
  simp only [Reader.turnsLeft, Reader.blocksRemaining, Reader.failuresLeft]
  cases Reader.step_moves hs with
  | delivered hblock hfailures hexpected =>
    have hrange : r.expectedHeight ≤ a.endHeight := by
      by_contra hgt
      exact hwithin (Reader.oversteps_iff.2 ⟨hblock, by omega⟩)
    omega
  | failed _ hfailures hexpected => omega
  | moved hblock hfailures hexpected _ hplace =>
    rw [hfailures, hexpected]
    omega

end Descent

/-! ### Any server -/

def Control.awaits : Control H → ReaderEvent H → Bool
  | .select, .cancel => true
  | .select, .tick => true
  | .select, .block _ => true
  | .select, .streamError _ => true
  | .select, .streamEnd => true
  | .sending _ _ _, .sent => true
  | .sending _ _ _, .closed => true
  | .reopening, .cancel => true
  | .reopening, .reopened => true
  | .reopening, .refused _ => true
  | _, _ => false

structure Behaviour (H : Type) where
  answer : Control H → ReaderEvent H
  awaited : ∀ c : Control H, (∀ result, c ≠ .done result) → c.awaits (answer c) = true

section Server
variable (a : ReaderArgs) (server : ℕ → Behaviour H)

def follow : ℕ → Reader H
  | 0 => a.init
  | n + 1 => ((follow n).step a ((server n).answer (follow n).control)).getD (follow n)

def eventAt (n : ℕ) : ReaderEvent H := (server n).answer (follow a server n).control

variable {a server}

theorem Reader.step_isSome {r : Reader H} {e : ReaderEvent H} :
    (r.step a e).isSome = r.control.awaits e := by
  unfold Reader.step Control.awaits
  cases r.control <;> cases e <;> rfl

theorem follow_step {n : ℕ} (hc : ∀ result, (follow a server n).control ≠ .done result) :
    (follow a server n).step a (eventAt a server n) = some (follow a server (n + 1)) := by
  have hsome : ((follow a server n).step a (eventAt a server n)).isSome = true := by
    rw [Reader.step_isSome]
    exact (server n).awaited _ hc
  obtain ⟨t, ht⟩ := Option.isSome_iff_exists.1 hsome
  have hnext : follow a server (n + 1) =
      ((follow a server n).step a (eventAt a server n)).getD (follow a server n) := rfl
  rw [hnext, ht, Option.getD_some]

theorem follow_counted (n : ℕ) : (follow a server n).Counted := by
  induction n with
  | zero => exact Reader.init_counted a
  | succ n ih =>
    by_cases hc : ∃ result, (follow a server n).control = .done result
    · have hnext : follow a server (n + 1) = follow a server n := by
        rw [follow, Reader.step_done hc, Option.getD_none]
      rw [hnext]
      exact ih
    · exact Reader.step_counted ih (follow_step fun result h => hc ⟨result, h⟩)

theorem follow_ends_of_turnsLeft
    (hserver : ∀ n, ¬ (follow a server n).Oversteps a (eventAt a server n)) {k n : ℕ}
    (hk : (follow a server n).turnsLeft a ≤ k) :
    ∃ m ≤ n + k, ∃ result, (follow a server m).control = .done result := by
  induction k generalizing n with
  | zero =>
    by_cases hc : ∃ result, (follow a server n).control = .done result
    · exact ⟨n, le_rfl, hc⟩
    · have hless := Reader.turnsLeft_step (follow_counted n) (hserver n)
        (follow_step fun result h => hc ⟨result, h⟩)
      omega
  | succ k ih =>
    by_cases hc : ∃ result, (follow a server n).control = .done result
    · exact ⟨n, Nat.le_add_right n _, hc⟩
    · have hless := Reader.turnsLeft_step (follow_counted n) (hserver n)
        (follow_step fun result h => hc ⟨result, h⟩)
      obtain ⟨m, hm, hdone⟩ := ih (n := n + 1) (by omega)
      exact ⟨m, by omega, hdone⟩

end Server

/-- The stream is opened again at most three times between two delivered blocks, and only a
    delivered block sets the failures back. The measure falls in every run that delivers no
    block past the range, and only in such; against a server that sends none the reader ends. -/
theorem readBlockStream_ends (a : ReaderArgs) :
    (∀ es fs (r : Reader H), run (Reader.step a) a.init es = some r →
      AllSteps (Reader.step a) (fun r e => r.delivers e = false) r fs → reopenings a r fs ≤ 3) ∧
    (∀ es e (r t : Reader H), run (Reader.step a) a.init es = some r → r.step a e = some t →
      if r.delivers e then t.failures = 0 else r.failures ≤ t.failures) ∧
    (∀ es : List (ReaderEvent H), AllSteps (Reader.step a) (Reader.Descends a) a.init es ↔
      AllSteps (Reader.step a) (fun r e => ¬ r.Oversteps a e) a.init es) ∧
    ∀ server : ℕ → Behaviour H,
      (∀ n, ¬ (follow a server n).Oversteps a (eventAt a server n)) →
      ∃ n ≤ 40 * (a.endHeight + 1 - a.startHeight) + 36, ∃ result,
        (follow a server n).control = .done result := by
  refine ⟨fun es fs r hrun hfs => ?_, fun es e r t hrun hs => ?_, fun es => ?_,
    fun server hserver => ?_⟩
  · by_cases hc : ∃ result, r.control = .done result
    · rw [reopenings_of_done hc]
      exact Nat.zero_le 3
    · have hle := reopenings_le (Reader.run_counted hrun) (fun result h => hc ⟨result, h⟩) hfs
      omega
  · cases Reader.step_moves hs with
    | delivered hblock hfailures =>
      rw [hblock]
      exact hfailures
    | failed hblock hfailures =>
      rw [hblock, hfailures]
      exact Nat.le_succ _
    | moved hblock hfailures =>
      rw [hblock, hfailures]
      exact le_refl _
  · rw [allSteps_iff, allSteps_iff]
    constructor
    · intro hall fs e gs t he hrun
      exact (Reader.descends_iff (Reader.run_counted hrun)).1 (hall fs e gs t he hrun)
    · intro hall fs e gs t he hrun
      exact (Reader.descends_iff (Reader.run_counted hrun)).2 (hall fs e gs t he hrun)
  · have hinit : (follow a server 0).turnsLeft a ≤ 40 * (a.endHeight + 1 - a.startHeight) + 36 := by
      have hplace := (Reader.place_select_le (r := follow a server 0) rfl).2
      have hblocks : (follow a server 0).blocksRemaining a = a.endHeight + 1 - a.startHeight := rfl
      have hfailures : (follow a server 0).failuresLeft = 4 := rfl
      rw [Reader.turnsLeft, hblocks, hfailures]
      omega
    obtain ⟨n, hn, hdone⟩ := follow_ends_of_turnsLeft hserver hinit
    exact ⟨n, by omega, hdone⟩

/-! ### Two servers -/

def refusingServer : Behaviour ℕ where
  answer
    | .select => .streamError "unavailable"
    | .sending _ _ _ => .sent
    | .reopening => .refused "unavailable"
    | .done _ => .cancel
  awaited c hc := by
    cases c with
    | done result => exact absurd rfl (hc result)
    | _ => rfl

theorem refusingServer_within (n : ℕ) :
    ¬ (follow sampleArgs (fun _ => refusingServer) n).Oversteps sampleArgs
      (eventAt sampleArgs (fun _ => refusingServer) n) := by
  rintro ⟨b, hb, hc, -⟩
  rw [eventAt, hc] at hb
  cases hb

/-- A stream that broke once is read to its end, and the reader gives up on a server that only
    refuses. -/
theorem sampleReplies_ends :
    (∃ r, run (Reader.step sampleArgs) sampleArgs.init (sampleReplies.take 1) = some r ∧
      reopenings sampleArgs r ((sampleReplies.drop 1).take 3) ≤ 3) ∧
    AllSteps (Reader.step sampleArgs) (Reader.Descends sampleArgs) sampleArgs.init sampleReplies ∧
    ∃ n ≤ 116, ∃ result,
      (follow sampleArgs (fun _ => refusingServer) n).control = .done result := by
  obtain ⟨hreopenings, -, hdescends, hserver⟩ := readBlockStream_ends (H := ℕ) sampleArgs
  refine ⟨⟨_, rfl, hreopenings (sampleReplies.take 1) _ _ rfl (by decide)⟩, (hdescends sampleReplies).2 ?_,
    hserver _ refusingServer_within⟩
  exact allSteps_of_within _ _ _ (by simp [sampleReplies, sampleArgs, sampleBlock])

def smallArgs : ReaderArgs := { sampleArgs with actionsPerSync := 0 }

def endlessServer (n : ℕ) : Behaviour ℕ where
  answer
    | .select => .block (sampleBlock (10 + n / 2) [])
    | .sending _ _ _ => .sent
    | .reopening => .reopened
    | .done _ => .cancel
  awaited c hc := by
    cases c with
    | done result => exact absurd rfl (hc result)
    | _ => rfl

/-- The reader waits for the block after `k` ones. -/
structure Waiting (k : ℕ) (r : Reader ℕ) : Prop where
  control : r.control = .select
  expectedHeight : r.expectedHeight = 10 + k
  prevHash : r.prevHash = some [UInt8.ofNat (9 + k)]
  heightsWithoutTime : r.heightsWithoutTime = []

theorem accept_small {r : Reader ℕ} (hr : r.heightsWithoutTime = []) (b : CompactBlock ℕ) :
    r.accept smallArgs b = { r with
      control := .sending (.chunk (r.chunk ++ [b])) [] .select
      chunk := []
      currentHeight := u32 b.height
      expectedHeight := r.expectedHeight + 1
      actions := 0
      prevHash := some b.hash
      failures := 0 } := by
  have hflush : flushChunk (r.chunk ++ [b]) = [.chunk (r.chunk ++ [b])] := by
    unfold flushChunk
    split
    · rename_i hnil
      simp at hnil
    · rfl
  have hheader : r.missingHeader b = [] := by simp [Reader.missingHeader, hr]
  unfold Reader.accept
  simp [smallArgs, hheader, hflush, Reader.send, hr]

theorem Waiting.block {k : ℕ} {r : Reader ℕ} (hr : Waiting k r) : ∃ t m u,
    r.step smallArgs (.block (sampleBlock (10 + k) [])) = some t ∧
      t.control = .sending m [] .select ∧ t.step smallArgs .sent = some u ∧ Waiting (k + 1) u := by
  have hheight : (sampleBlock (10 + k) []).height = r.expectedHeight := hr.expectedHeight.symm
  have hlinks : r.links (sampleBlock (10 + k) []) = true := by
    have hprev : 10 + k - 1 = 9 + k := by omega
    simp [Reader.links, hr.prevHash, sampleBlock, hprev]
  have hstep : r.step smallArgs (.block (sampleBlock (10 + k) [])) =
      some (r.accept smallArgs (sampleBlock (10 + k) [])) := by
    simp only [Reader.step, hr.control, Reader.onBlock]
    rw [if_neg (not_not.2 hheight), if_pos hlinks]
  rw [accept_small hr.heightsWithoutTime] at hstep
  refine ⟨_, _, _, hstep, rfl, rfl, rfl, ?_, ?_, hr.heightsWithoutTime⟩
  · change r.expectedHeight + 1 = 10 + (k + 1)
    rw [hr.expectedHeight]
    omega
  · have hnext : 9 + (k + 1) = 10 + k := by omega
    rw [hnext]
    rfl

theorem endless_waiting (k : ℕ) : Waiting k (follow smallArgs endlessServer (2 * k)) ∧
    ∃ m, (follow smallArgs endlessServer (2 * k + 1)).control = .sending m [] .select := by
  have hturns : ∀ k, Waiting k (follow smallArgs endlessServer (2 * k)) →
      (∃ m, (follow smallArgs endlessServer (2 * k + 1)).control = .sending m [] .select) ∧
        Waiting (k + 1) (follow smallArgs endlessServer (2 * (k + 1))) := by
    intro k hk
    obtain ⟨t, m, u, ht, hm, hu, hnext⟩ := hk.block
    have hhalf : 2 * k / 2 = k := by omega
    have hfirst : follow smallArgs endlessServer (2 * k + 1) = t := by
      rw [follow, hk.control]
      change (Reader.step smallArgs _ (.block (sampleBlock (10 + 2 * k / 2) []))).getD _ = t
      rw [hhalf, ht, Option.getD_some]
    have hsecond : follow smallArgs endlessServer (2 * (k + 1)) = u := by
      change follow smallArgs endlessServer (2 * k + 1 + 1) = u
      rw [follow, hfirst, hm]
      change (t.step smallArgs .sent).getD t = u
      rw [hu, Option.getD_some]
    rw [hfirst, hsecond]
    exact ⟨⟨m, hm⟩, hnext⟩
  have hwaiting : Waiting k (follow smallArgs endlessServer (2 * k)) := by
    induction k with
    | zero => exact ⟨rfl, rfl, rfl, rfl⟩
    | succ k ih => exact (hturns k ih).2
  exact ⟨hwaiting, (hturns k hwaiting).1⟩

/-- For two blocks the reader goes on without an end. -/
theorem endlessServer_never_ends :
    ¬ ∃ n result, (follow smallArgs endlessServer n).control = .done result := by
  rintro ⟨n, result, hdone⟩
  obtain ⟨hwaiting, m, hsending⟩ := endless_waiting (n / 2)
  rcases Nat.mod_two_eq_zero_or_one n with hn | hn
  · have hn' : 2 * (n / 2) = n := by omega
    rw [hn'] at hwaiting
    rw [hwaiting.control] at hdone
    cases hdone
  · have hn' : 2 * (n / 2) + 1 = n := by omega
    rw [hn', hdone] at hsending
    cases hsending

end ZcashSdk.Warp
