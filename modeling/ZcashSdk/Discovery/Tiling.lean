import ZcashSdk.Discovery.Walk
import ZcashSdk.Lib.Iterate

set_option autoImplicit false

/-!
# Windows that tile a range

Both walks ask for a range window by window, of whatever width the server answers to. The
accepted windows tile what lies before the next one; a turn either moves the walk on or
narrows the window. The walk of a sync leaves its loop at the last height, that of a candidate
computes the height after it, which a range up to the largest height does not have.
-/
namespace ZcashSdk.Discovery
open Iterate

def maxHeight : ℕ := 2 ^ 32 - 1

/-- How a window fails; of `BackfillError`, with the cancellation. -/
inductive WindowFailure where
  | fetch
  | db
  | timeout
  | windowFull
  | cancelled
  deriving DecidableEq

def WindowFailure.narrows : WindowFailure → Bool
  | fetch | timeout | windowFull => true
  | db | cancelled => false

/-- Why a walk stops early: an error it returns, or arithmetic that leaves a `u32`. -/
inductive Stop where
  | failed (e : WindowFailure)
  | overflow
  deriving DecidableEq

structure Asked where
  lo : ℕ
  hi : ℕ
  width : ℕ
  markerLo : ℕ
  accepted : Bool
  deriving DecidableEq

structure Walk where
  asked : List Asked
  markerLo : ℕ
  lo : ℕ
  window : ℕ

/-- `lo.saturating_add(window - 1).min(end)`. -/
def Walk.hi (w : Walk) (endHeight : ℕ) : ℕ := min (satAdd w.lo (w.window - 1)) endHeight

def Walk.ask (w : Walk) (endHeight : ℕ) (accepted : Bool) : List Asked :=
  w.asked ++ [⟨w.lo, w.hi endHeight, w.window, w.markerLo, accepted⟩]

abbrev WalkResult := List Asked × Except Stop Unit

/-- A window that failed is asked for again at half the width, down to the minimum. -/
def narrow (w : Walk) (endHeight : ℕ) (e : WindowFailure) : Walk ⊕ WalkResult :=
  if e.narrows ∧ minBackfillWindow < w.window then
    .inl ⟨w.ask endHeight false, w.markerLo, w.lo, max (w.window / 2) minBackfillWindow⟩
  else .inr (w.ask endHeight false, .error (.failed e))

section Sync
variable (outcome marker : ℕ → Except WindowFailure Unit) (endHeight : ℕ)

/-- A turn of `walk_windows`: `outcome n` is what the `n`-th window comes to, and `marker n` what
    writing its marker does. -/
def syncTurn (w : Walk) : Walk ⊕ WalkResult :=
  if w.lo ≤ endHeight then
    if w.window = 0 then .inr (w.asked, .error .overflow)
    else
      match outcome w.asked.length with
      | .ok () =>
        match marker w.asked.length with
        | .error e => .inr (w.ask endHeight true, .error (.failed e))
        | .ok () =>
          if w.hi endHeight = endHeight then .inr (w.ask endHeight true, .ok ())
          else if w.hi endHeight + 1 ≤ maxHeight then
            .inl ⟨w.ask endHeight true, w.hi endHeight + 1, w.hi endHeight + 1, w.window⟩
          else .inr (w.ask endHeight true, .error .overflow)
      | .error e => narrow w endHeight e
  else .inr (w.asked, .ok ())

/-- `walk_windows`, cut off after so many turns. -/
def syncWindows (lo fuel : ℕ) : Option WalkResult :=
  iterate (syncTurn outcome marker endHeight) fuel ⟨[], lo, lo, satAdd (endHeight - lo) 1⟩

end Sync

section Candidate
variable (outcome : ℕ → Except WindowFailure (Option Bool)) (endHeight : ℕ)

/-- A turn of `walk_candidate`: a window comes to nothing found, or to rows that are certified or
    not. -/
def candidateTurn (w : Walk) : Walk ⊕ WalkResult :=
  if w.lo ≤ endHeight then
    if w.window = 0 then .inr (w.asked, .error .overflow)
    else
      match outcome w.asked.length with
      | .ok found =>
        if w.hi endHeight + 1 ≤ maxHeight then
          .inl ⟨w.ask endHeight true, if found = some true then w.hi endHeight + 1 else w.markerLo,
            w.hi endHeight + 1, w.window⟩
        else .inr (w.ask endHeight true, .error .overflow)
      | .error e => narrow w endHeight e
  else .inr (w.asked, .ok ())

/-- `walk_candidate`, cut off after so many turns. -/
def candidateWindows (lo fuel : ℕ) : Option WalkResult :=
  if endHeight < lo then some ([], .ok ())
  else if endHeight - lo + 1 ≤ maxHeight then
    iterate (candidateTurn outcome endHeight) fuel ⟨[], lo, lo, endHeight - lo + 1⟩
  else some ([], .error .overflow)

end Candidate

/-! ### Tiles -/

/-- Ranges one after the other, from `lo` up to the height before `next`. -/
def Tiles : ℕ → ℕ → List (ℕ × ℕ) → Prop
  | lo, next, [] => lo = next
  | lo, next, (a, b) :: ws => a = lo ∧ a ≤ b ∧ Tiles (b + 1) next ws

def accepted (asked : List Asked) : List (ℕ × ℕ) :=
  (asked.filter Asked.accepted).map fun a => (a.lo, a.hi)

theorem Tiles.snoc {lo m b : ℕ} {ws : List (ℕ × ℕ)} (h : Tiles lo m ws) (hb : m ≤ b) :
    Tiles lo (b + 1) (ws ++ [(m, b)]) := by
  induction ws generalizing lo with
  | nil =>
    rw [Tiles] at h
    subst h
    exact ⟨rfl, hb, rfl⟩
  | cons w ws ih =>
    obtain ⟨a, c⟩ := w
    obtain ⟨ha, hac, hrest⟩ := h
    exact ⟨ha, hac, ih hrest⟩

theorem Tiles.le {lo next : ℕ} {ws : List (ℕ × ℕ)} (h : Tiles lo next ws) : lo ≤ next := by
  induction ws generalizing lo with
  | nil => exact le_of_eq h
  | cons w ws ih =>
    obtain ⟨a, b⟩ := w
    obtain ⟨rfl, hab, hrest⟩ := h
    have hle := ih hrest
    omega

theorem Tiles.mem_iff {lo next : ℕ} {ws : List (ℕ × ℕ)} (h : Tiles lo next ws) (x : ℕ) :
    (∃ w ∈ ws, w.1 ≤ x ∧ x ≤ w.2) ↔ lo ≤ x ∧ x < next := by
  induction ws generalizing lo with
  | nil =>
    rw [Tiles] at h
    subst h
    simp only [List.not_mem_nil, false_and, exists_false, false_iff]
    omega
  | cons w ws ih =>
    obtain ⟨a, b⟩ := w
    obtain ⟨rfl, hab, hrest⟩ := h
    have hle := hrest.le
    rw [List.exists_mem_cons_iff, ih hrest]
    dsimp only
    omega

theorem accepted_ask (w : Walk) (endHeight : ℕ) :
    accepted (w.ask endHeight true) = accepted w.asked ++ [(w.lo, w.hi endHeight)] := by
  unfold accepted Walk.ask
  rw [List.filter_append, List.map_append]
  rfl

theorem refused_ask (w : Walk) (endHeight : ℕ) :
    accepted (w.ask endHeight false) = accepted w.asked := by
  unfold accepted Walk.ask
  rw [List.filter_append, List.map_append]
  exact List.append_nil _

/-! ### What a walk promises -/

/-- A width that halving did not take below the minimum; the range itself may be narrower. -/
def Wide (lo endHeight width : ℕ) : Prop :=
  minBackfillWindow ≤ width ∨ endHeight - lo + 1 < minBackfillWindow ∧ width = endHeight - lo + 1

/-- No overflow, windows that are wide enough, and an error or a tiling of the range. -/
structure Covers (lo endHeight : ℕ) (result : WalkResult) : Prop where
  exact : result.2 ≠ .error .overflow
  tiles : result.2 = .ok () → Tiles lo (endHeight + 1) (accepted result.1)
  wide : ∀ a ∈ result.1, Wide lo endHeight a.width

def Walks (lo endHeight : ℕ) (run : ℕ → Option WalkResult) : Prop :=
  ∃ result bound, (∀ fuel, bound ≤ fuel → run fuel = some result) ∧ Covers lo endHeight result

structure Advancing (lo endHeight : ℕ) (w : Walk) : Prop where
  reached : w.lo ≤ endHeight + 1
  tiles : Tiles lo w.lo (accepted w.asked)
  window : Wide lo endHeight w.window
  wide : ∀ a ∈ w.asked, Wide lo endHeight a.width

def Nearer (endHeight : ℕ) (v w : Walk) : Prop :=
  Prod.Lex (· < ·) (· < ·) (endHeight + 1 - v.lo, v.window) (endHeight + 1 - w.lo, w.window)

theorem nearer_wf (endHeight : ℕ) : WellFounded (Nearer endHeight) :=
  InvImage.wf (fun w : Walk => (endHeight + 1 - w.lo, w.window))
    (WellFounded.prod_lex Nat.lt_wfRel.wf Nat.lt_wfRel.wf)

section Turns
variable {lo endHeight : ℕ} {w : Walk}

theorem Wide.pos {width : ℕ} (h : Wide lo endHeight width) : 0 < width := by
  have hmin : minBackfillWindow = 1000 := rfl
  unfold Wide at h
  omega

theorem hi_bounds (hlo : w.lo ≤ endHeight) (hend : endHeight ≤ maxHeight) :
    w.lo ≤ w.hi endHeight ∧ w.hi endHeight ≤ endHeight := by
  have hmax : maxHeight = 2 ^ 32 - 1 := rfl
  unfold Walk.hi satAdd
  omega

theorem Advancing.wide_ask (h : Advancing lo endHeight w) (accepted : Bool) :
    ∀ a ∈ w.ask endHeight accepted, Wide lo endHeight a.width := by
  intro a ha
  rcases List.mem_append.1 ha with ha | ha
  · exact h.wide a ha
  · rw [List.mem_singleton.1 ha]
    exact h.window

theorem Advancing.tiles_ask (h : Advancing lo endHeight w) (hlo : w.lo ≤ endHeight)
    (hend : endHeight ≤ maxHeight) :
    Tiles lo (w.hi endHeight + 1) (accepted (w.ask endHeight true)) := by
  rw [accepted_ask]
  exact h.tiles.snoc (hi_bounds hlo hend).1

theorem Advancing.accept (h : Advancing lo endHeight w) (hlo : w.lo ≤ endHeight)
    (hend : endHeight ≤ maxHeight) (markerLo : ℕ) :
    Advancing lo endHeight ⟨w.ask endHeight true, markerLo, w.hi endHeight + 1, w.window⟩ ∧
      Nearer endHeight ⟨w.ask endHeight true, markerLo, w.hi endHeight + 1, w.window⟩ w := by
  have hhi := hi_bounds hlo hend
  refine ⟨⟨Nat.succ_le_succ hhi.2, h.tiles_ask hlo hend, h.window, h.wide_ask true⟩, ?_⟩
  exact Prod.Lex.left _ _ (by dsimp only; omega)

theorem Advancing.narrow (h : Advancing lo endHeight w) (e : WindowFailure) :
    Turns (Advancing lo endHeight) (Covers lo endHeight) (Nearer endHeight) w
      (narrow w endHeight e) := by
  have hmin : minBackfillWindow = 1000 := rfl
  unfold Discovery.narrow
  split
  · rename_i hnarrow
    refine ⟨⟨h.reached, ?_, Or.inl (Nat.le_max_right _ _), h.wide_ask false⟩, ?_⟩
    · rw [refused_ask]
      exact h.tiles
    · exact Prod.Lex.right _ (by dsimp only; omega)
  · exact ⟨by simp, by simp, h.wide_ask false⟩

theorem Advancing.past (h : Advancing lo endHeight w) (hlo : ¬ w.lo ≤ endHeight) :
    Covers lo endHeight (w.asked, .ok ()) := by
  have hreached := h.reached
  have hnext : w.lo = endHeight + 1 := by omega
  exact ⟨by simp, fun _ => hnext ▸ h.tiles, h.wide⟩

theorem syncTurn_turns (outcome marker : ℕ → Except WindowFailure Unit)
    (hend : endHeight ≤ maxHeight) (h : Advancing lo endHeight w) :
    Turns (Advancing lo endHeight) (Covers lo endHeight) (Nearer endHeight) w
      (syncTurn outcome marker endHeight w) := by
  unfold syncTurn
  split
  · rename_i hlo
    rw [if_neg h.window.pos.ne']
    split
    · split
      · exact ⟨by simp, by simp, h.wide_ask true⟩
      · split
        · rename_i hlast
          have htiles := h.tiles_ask hlo hend
          rw [hlast] at htiles
          exact ⟨by simp, fun _ => htiles, h.wide_ask true⟩
        · rename_i hlast
          have hhi := hi_bounds hlo hend
          rw [if_pos (by omega)]
          exact h.accept hlo hend _
    · exact h.narrow _
  · rename_i hlo
    exact h.past hlo

theorem candidateTurn_turns (outcome : ℕ → Except WindowFailure (Option Bool))
    (hend : endHeight < maxHeight) (h : Advancing lo endHeight w) :
    Turns (Advancing lo endHeight) (Covers lo endHeight) (Nearer endHeight) w
      (candidateTurn outcome endHeight w) := by
  unfold candidateTurn
  split
  · rename_i hlo
    rw [if_neg h.window.pos.ne']
    split
    · have hhi := hi_bounds hlo hend.le
      rw [if_pos (by omega)]
      exact h.accept hlo hend.le _
    · exact h.narrow _
  · rename_i hlo
    exact h.past hlo

theorem advancing_start (hlo : lo ≤ endHeight) (markerLo : ℕ) {window : ℕ}
    (hwindow : Wide lo endHeight window) : Advancing lo endHeight ⟨[], markerLo, lo, window⟩ :=
  ⟨by dsimp only; omega, rfl, hwindow, by simp⟩

theorem walks_of_turns {turn : Walk → Walk ⊕ WalkResult} {s : Walk}
    (hturn : ∀ w, Advancing lo endHeight w →
      Turns (Advancing lo endHeight) (Covers lo endHeight) (Nearer endHeight) w (turn w))
    (hs : Advancing lo endHeight s) : Walks lo endHeight fun fuel => iterate turn fuel s := by
  obtain ⟨result, ⟨bound, hrun⟩, hcovers⟩ :=
    ends_of_turns turn (Advancing lo endHeight) (Covers lo endHeight) (nearer_wf endHeight) hturn hs
  exact ⟨result, bound, hrun, hcovers⟩

theorem syncWindows_walks (outcome marker : ℕ → Except WindowFailure Unit) (hlo : lo ≤ endHeight)
    (hend : endHeight ≤ maxHeight) : Walks lo endHeight (syncWindows outcome marker endHeight lo) := by
  have hmax : maxHeight = 2 ^ 32 - 1 := rfl
  have hmin : minBackfillWindow = 1000 := rfl
  refine walks_of_turns (fun w => syncTurn_turns outcome marker hend) (advancing_start hlo lo ?_)
  unfold Wide satAdd
  omega

theorem candidateWindows_walks (outcome : ℕ → Except WindowFailure (Option Bool))
    (hlo : lo ≤ endHeight) (hend : endHeight < maxHeight) :
    Walks lo endHeight (candidateWindows outcome endHeight lo) := by
  unfold candidateWindows
  simp only [if_neg (show ¬ endHeight < lo by omega),
    if_pos (show endHeight - lo + 1 ≤ maxHeight by omega)]
  refine walks_of_turns (fun w => candidateTurn_turns outcome hend) (advancing_start hlo lo ?_)
  unfold Wide
  omega

/-- Up to the largest height, a candidate whose windows all succeed overflows. -/
theorem candidateWindows_overflows (hlo : lo ≤ maxHeight) :
    ¬ Walks lo maxHeight (candidateWindows (fun _ => .ok none) maxHeight lo) := by
  have hmax : maxHeight = 2 ^ 32 - 1 := rfl
  rintro ⟨result, bound, hrun, hcovers⟩
  have hresult : ∃ asked, candidateWindows (fun _ => .ok none) maxHeight lo (bound + 1) =
      some (asked, .error .overflow) := by
    unfold candidateWindows
    rw [if_neg (by omega)]
    split
    · have hhi : min (satAdd lo (maxHeight - lo + 1 - 1)) maxHeight = maxHeight := by
        unfold satAdd
        omega
      refine ⟨[⟨lo, maxHeight, maxHeight - lo + 1, lo, true⟩], ?_⟩
      rw [iterate, candidateTurn]
      simp only [Walk.ask, Walk.hi, hhi, if_pos hlo, Nat.add_eq_zero_iff, one_ne_zero, and_false, if_false,
        if_neg (show ¬ maxHeight + 1 ≤ maxHeight by omega)]
      rfl
    · exact ⟨[], rfl⟩
  obtain ⟨asked, hasked⟩ := hresult
  rw [hrun _ (Nat.le_succ bound), Option.some_inj] at hasked
  exact hcovers.exact (congrArg Prod.snd hasked)

/-- The walk of a sync always ends with an error or a tiling. Both walks do, whatever the windows
    come to, exactly when the range ends below the largest height. -/
theorem windows_tile_iff (lo endHeight : ℕ) (hlo : lo ≤ endHeight) (hend : endHeight ≤ maxHeight) :
    (∀ outcome marker, Walks lo endHeight (syncWindows outcome marker endHeight lo)) ∧
    (((∀ outcome marker, Walks lo endHeight (syncWindows outcome marker endHeight lo)) ∧
      ∀ outcome, Walks lo endHeight (candidateWindows outcome endHeight lo)) ↔
      endHeight < maxHeight) := by
  have hsync := fun outcome marker => @syncWindows_walks lo _ outcome marker hlo hend
  refine ⟨hsync, fun h => ?_, fun hlt => ⟨hsync, fun outcome => ?_⟩⟩
  · by_contra hnot
    obtain rfl : endHeight = maxHeight := by omega
    exact candidateWindows_overflows hlo (h.2 fun _ => .ok none)
  · exact candidateWindows_walks outcome hlo hlt

end Turns

theorem thousands_tile :
    (∀ outcome marker, Walks 2000000 2002999 (syncWindows outcome marker 2002999 2000000)) ∧
    (((∀ outcome marker, Walks 2000000 2002999 (syncWindows outcome marker 2002999 2000000)) ∧
      ∀ outcome, Walks 2000000 2002999 (candidateWindows outcome 2002999 2000000)) ↔
      2002999 < maxHeight) :=
  windows_tile_iff 2000000 2002999 (by decide) (by decide)

/-- A candidate whose range ends at the largest height. -/
theorem lastHeight_overflows :
    ¬ Walks 4294967000 maxHeight (candidateWindows (fun _ => .ok none) maxHeight 4294967000) :=
  candidateWindows_overflows (by decide)

end ZcashSdk.Discovery
