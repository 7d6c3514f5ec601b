import ZcashSdk.Shielded.Sample
import ZcashSdk.Warp.Reader

set_option autoImplicit false

/-!
# What the block reader delivers

The blocks the reader puts into chunks are consecutive from the start height and
hash-linked, whatever the server replies. The reader has no upper bound of its own: a
linked block after `endHeight` is delivered like any other, so the range is exact in the
runs in which the server sends none.
-/
namespace ZcashSdk.Warp
open Shielded Runs

variable {H : Type}

/-- Consecutive heights from `start`, each block linked to the one before. -/
def Chained : Option Bytes → ℕ → List (CompactBlock H) → Prop
  | _, _, [] => True
  | prev, start, b :: bs =>
    b.height = start ∧ (∀ h, prev = some h → h = b.prevHash) ∧ Chained (some b.hash) (start + 1) bs

def tip (prev : Option Bytes) (bs : List (CompactBlock H)) : Option Bytes :=
  match bs.getLast? with
  | some b => some b.hash
  | none => prev

theorem tip_append (prev : Option Bytes) (bs : List (CompactBlock H)) (b : CompactBlock H) :
    tip prev (bs ++ [b]) = some b.hash := by
  simp [tip]

theorem tip_cons (prev : Option Bytes) (b : CompactBlock H) (bs : List (CompactBlock H)) :
    tip prev (b :: bs) = tip (some b.hash) bs := by
  unfold tip
  cases bs with
  | nil => rfl
  | cons c cs =>
    rw [List.getLast?_cons_cons]
    cases h : (c :: cs).getLast? with
    | none => simp at h
    | some d => rfl

theorem chained_append (prev : Option Bytes) (start : ℕ) (bs cs : List (CompactBlock H)) :
    Chained prev start (bs ++ cs) ↔
      Chained prev start bs ∧ Chained (tip prev bs) (start + bs.length) cs := by
  induction bs generalizing prev start with
  | nil => simp [Chained, tip]
  | cons b bs ih =>
    rw [List.cons_append, Chained, Chained, ih, tip_cons, List.length_cons,
      show start + 1 + bs.length = start + (bs.length + 1) by omega]
    tauto

theorem Chained.heights {prev : Option Bytes} {start : ℕ} {bs : List (CompactBlock H)}
    (hc : Chained prev start bs) : bs.map CompactBlock.height = List.range' start bs.length := by
  induction bs generalizing prev start with
  | nil => rfl
  | cons b bs ih =>
    obtain ⟨hb, -, hc⟩ := hc
    rw [List.map_cons, ih hc, hb, List.length_cons, List.range'_succ]

def messageBlocks (ms : List (BlockMessage H)) : List (CompactBlock H) :=
  ms.flatMap BlockMessage.blocks

@[simp] theorem messageBlocks_nil : messageBlocks ([] : List (BlockMessage H)) = [] := rfl

@[simp] theorem messageBlocks_append (ms ns : List (BlockMessage H)) :
    messageBlocks (ms ++ ns) = messageBlocks ms ++ messageBlocks ns := by
  simp [messageBlocks]

@[simp] theorem messageBlocks_flushChunk (chunk : List (CompactBlock H)) :
    messageBlocks (flushChunk chunk) = chunk := by
  cases chunk <;> simp [flushChunk, messageBlocks, BlockMessage.blocks]

def Reader.pending (r : Reader H) : List (BlockMessage H) :=
  match r.control with
  | .sending m ms _ => m :: ms
  | _ => []

/-- All blocks put into chunks, whether these were sent already or not. -/
def Reader.delivered (r : Reader H) : List (CompactBlock H) :=
  messageBlocks r.sent ++ (messageBlocks r.pending ++ r.chunk)

/-- A linked block past the requested range. -/
def Reader.Oversteps (a : ReaderArgs) (r : Reader H) (e : ReaderEvent H) : Prop :=
  ∃ b, e = .block b ∧ r.control = .select ∧ b.height = r.expectedHeight ∧ r.links b ∧
    a.endHeight < b.height

/-- What the reader promises about its chunks and its result. -/
structure Reader.Sound (a : ReaderArgs) (r : Reader H) : Prop where
  chained : Chained a.prevHash a.startHeight r.delivered
  within : ∀ b ∈ r.delivered, b.height ≤ a.endHeight
  ok : r.control = .done (.ok ()) →
    (messageBlocks r.sent).map CompactBlock.height =
      List.range' a.startHeight (a.endHeight + 1 - a.startHeight)
  reorg : ∀ h, r.control = .done (.error (.reorg h)) →
    (messageBlocks r.sent).map CompactBlock.height =
      List.range' a.startHeight (h + 1 - a.startHeight)

/-- Heights are 32-bit numbers and the scan starts after some block. -/
structure ReaderArgs.WellFormed (a : ReaderArgs) : Prop where
  start_pos : 1 ≤ a.startHeight
  start_lt : a.startHeight < 2 ^ 32
  end_lt : a.endHeight < 2 ^ 32

/-! ### The invariant -/

/-- The books of a reader that goes on: what it expects next follows from what it has. -/
structure Reader.Books (a : ReaderArgs) (r : Reader H) (delivered : List (CompactBlock H)) :
    Prop where
  chained : Chained a.prevHash a.startHeight delivered
  within : ∀ b ∈ delivered, b.height ≤ a.endHeight
  expected : r.expectedHeight = a.startHeight + delivered.length
  prevHash : r.prevHash = tip a.prevHash delivered

def ResultFits (a : ReaderArgs) (expected : ℕ) : Except SyncError Unit → Prop
  | .ok () => a.endHeight < expected
  | .error (.reorg h) => h = subU32 (u32 expected) 1
  | .error _ => True

/-- A reader that ends with a range result has flushed its chunk. -/
def AfterFits (a : ReaderArgs) (r : Reader H) (after : After) : Prop :=
  ∀ result, after = .done result → r.chunk = [] ∧ ResultFits a r.expectedHeight result

/-- Results that leave blocks behind, and so say nothing about the range. -/
def Gave (result : Except SyncError Unit) : Prop :=
  result ≠ .ok () ∧ ∀ h, result ≠ .error (.reorg h)

structure Reader.Inv (a : ReaderArgs) (r : Reader H) : Prop where
  chained : Chained a.prevHash a.startHeight r.delivered
  within : ∀ b ∈ r.delivered, b.height ≤ a.endHeight
  books : (∀ result, r.control = .done result → ¬ Gave result) → r.Books a r.delivered
  sending : ∀ m ms after, r.control = .sending m ms after →
    (messageBlocks (m :: ms) = [] ∨ r.chunk = []) ∧ AfterFits a r after
  done : ∀ result, r.control = .done result → ¬ Gave result →
    r.chunk = [] ∧ ResultFits a r.expectedHeight result

theorem gave_other (error : String) : Gave (.error (.other error)) := by
  constructor <;> simp

theorem gave_cancelled : Gave (.error .cancelled) := by
  constructor <;> simp

theorem Reader.Inv.of_idle {a : ReaderArgs} {r : Reader H} (hp : r.pending = [])
    (hb : r.Books a (messageBlocks r.sent ++ r.chunk))
    (hs : ∀ m ms after, r.control ≠ .sending m ms after)
    (hd : ∀ result, r.control = .done result → ¬ Gave result →
      r.chunk = [] ∧ ResultFits a r.expectedHeight result) : r.Inv a := by
  have hdel : r.delivered = messageBlocks r.sent ++ r.chunk := by
    simp [Reader.delivered, hp]
  exact ⟨hdel ▸ hb.chained, hdel ▸ hb.within, fun _ => hdel ▸ hb,
    fun m ms after hc => absurd hc (hs m ms after), hd⟩

theorem Reader.Inv.resume {a : ReaderArgs} {r : Reader H} (error : String)
    (hb : r.Books a (messageBlocks r.sent ++ r.chunk)) : (r.resume error).Inv a := by
  unfold Reader.resume
  dsimp only
  split
  · refine Reader.Inv.of_idle rfl ⟨hb.chained, hb.within, hb.expected, hb.prevHash⟩ (by simp) ?_
    intro result hr hg
    simp only [Control.done.injEq] at hr
    exact absurd (hr ▸ gave_other _) hg
  · exact Reader.Inv.of_idle rfl ⟨hb.chained, hb.within, hb.expected, hb.prevHash⟩ (by simp)
      (by simp)

theorem Reader.Inv.goto {a : ReaderArgs} {r : Reader H} {after : After}
    (hb : r.Books a (messageBlocks r.sent ++ r.chunk)) (ha : AfterFits a r after) :
    (r.goto after).Inv a := by
  cases after with
  | select =>
    exact Reader.Inv.of_idle rfl ⟨hb.chained, hb.within, hb.expected, hb.prevHash⟩
      (by simp [Reader.goto]) (by simp [Reader.goto])
  | resume error => exact Reader.Inv.resume error hb
  | done result =>
    refine Reader.Inv.of_idle rfl ⟨hb.chained, hb.within, hb.expected, hb.prevHash⟩
      (by simp [Reader.goto]) ?_
    intro result' hr _
    simp only [Reader.goto, Control.done.injEq] at hr
    exact ha result' (by rw [hr])

theorem Reader.Inv.send {a : ReaderArgs} {r : Reader H} {ms : List (BlockMessage H)}
    {after : After} (hb : r.Books a (messageBlocks r.sent ++ (messageBlocks ms ++ r.chunk)))
    (hf : messageBlocks ms = [] ∨ r.chunk = []) (ha : AfterFits a r after) :
    (r.send ms after).Inv a := by
  cases ms with
  | nil => exact Reader.Inv.goto hb ha
  | cons m ms =>
    refine ⟨hb.chained, hb.within, fun _ => ⟨hb.chained, hb.within, hb.expected, hb.prevHash⟩,
      ?_, by simp [Reader.send]⟩
    intro m' ms' after' hc
    simp only [Reader.send, Control.sending.injEq] at hc
    obtain ⟨rfl, rfl, rfl⟩ := hc
    exact ⟨hf, ha⟩

theorem Reader.init_inv (a : ReaderArgs) : (a.init : Reader H).Inv a :=
  Reader.Inv.of_idle rfl ⟨trivial, by simp [ReaderArgs.init], rfl, rfl⟩ (by simp [ReaderArgs.init])
    (by simp [ReaderArgs.init])

/-! ### Steps -/

section Steps
variable {a : ReaderArgs} {r : Reader H}

theorem Reader.Inv.books_of_idle (hi : r.Inv a)
    (hc : r.control = .select ∨ r.control = .reopening) :
    r.Books a (messageBlocks r.sent ++ r.chunk) := by
  rcases hc with hc | hc <;>
    simpa [Reader.delivered, Reader.pending, hc] using hi.books (by simp [hc])

theorem Reader.Inv.flush (hb : r.Books a (messageBlocks r.sent ++ r.chunk))
    (more : List (BlockMessage H)) (hm : messageBlocks more = []) (after : After)
    (ha : ∀ result, after = .done result → ResultFits a r.expectedHeight result) (current : ℕ) :
    ({ r with chunk := [], currentHeight := current }.send (flushChunk r.chunk ++ more)
      after).Inv a := by
  refine Reader.Inv.send ?_ (Or.inr rfl) fun result hr => ⟨rfl, ha result hr⟩
  simp only [messageBlocks_append, messageBlocks_flushChunk, hm, List.append_nil]
  exact ⟨hb.chained, hb.within, hb.expected, hb.prevHash⟩

theorem Reader.Inv.fail (hb : r.Books a (messageBlocks r.sent ++ r.chunk)) (error : String) :
    (r.fail a error).Inv a := by
  have h := Reader.Inv.flush hb [] rfl
    (if a.endHeight < r.expectedHeight then .done (.error (.other error)) else .resume error)
    (by
      intro result hr
      split_ifs at hr with hc
      simp only [After.done.injEq] at hr
      subst hr
      trivial) r.currentHeight
  rw [List.append_nil] at h
  exact h

theorem Reader.Inv.accept (hb : r.Books a (messageBlocks r.sent ++ r.chunk)) (b : CompactBlock H)
    (hh : b.height = r.expectedHeight) (hl : r.links b = true) (he : b.height ≤ a.endHeight) :
    (r.accept a b).Inv a := by
  have hlink : ∀ h, tip a.prevHash (messageBlocks r.sent ++ r.chunk) = some h →
      h = b.prevHash := by
    intro h ht
    rw [← hb.prevHash] at ht
    simpa [Reader.links, ht] using hl
  have hchain : Chained a.prevHash a.startHeight (messageBlocks r.sent ++ r.chunk ++ [b]) := by
    rw [chained_append]
    exact ⟨hb.chained, by rw [hh, hb.expected], hlink, trivial⟩
  have hwithin : ∀ c ∈ messageBlocks r.sent ++ r.chunk ++ [b], c.height ≤ a.endHeight := by
    intro c hc
    rcases List.mem_append.1 hc with hc | hc
    · exact hb.within c hc
    · rw [List.mem_singleton.1 hc]
      exact he
  have hexp : r.expectedHeight + 1 =
      a.startHeight + (messageBlocks r.sent ++ r.chunk ++ [b]).length := by
    rw [hb.expected]
    simp only [List.length_append, List.length_singleton]
    omega
  have hhead : messageBlocks (r.missingHeader b) = [] := by
    unfold Reader.missingHeader
    split_ifs <;> rfl
  unfold Reader.accept
  dsimp only
  split_ifs with hfull
  · refine Reader.Inv.send ?_ (Or.inr rfl) (by simp [AfterFits])
    simp only [messageBlocks_append, hhead, messageBlocks_flushChunk, List.append_nil,
      List.nil_append]
    rw [← List.append_assoc]
    exact ⟨hchain, hwithin, hexp, (tip_append _ _ b).symm⟩
  · refine Reader.Inv.send ?_ (Or.inl hhead) (by simp [AfterFits])
    simp only [hhead, List.nil_append]
    rw [← List.append_assoc]
    exact ⟨hchain, hwithin, hexp, (tip_append _ _ b).symm⟩

theorem Reader.Inv.onBlock (hb : r.Books a (messageBlocks r.sent ++ r.chunk))
    (b : CompactBlock H)
    (hg : b.height = r.expectedHeight → r.links b = true → b.height ≤ a.endHeight) :
    (r.onBlock a b).Inv a := by
  unfold Reader.onBlock
  split_ifs with hh hl
  · have h := Reader.Inv.flush hb [] rfl (.done (.error (.other
      ("expected compact block " ++ toString r.expectedHeight ++ ", received " ++
        toString b.height)))) (by
        intro result hr
        simp only [After.done.injEq] at hr
        subst hr
        trivial) r.currentHeight
    rw [List.append_nil] at h
    exact h
  · have he := not_not.1 hh
    exact Reader.Inv.accept hb b he hl (hg he hl)
  · refine Reader.Inv.flush hb _ rfl _ ?_ _
    intro result hr
    simp only [After.done.injEq] at hr
    subst hr
    rw [not_not.1 hh]
    rfl

theorem Reader.Inv.onTick (hi : r.Inv a) (hc : r.control = .select) : (r.onTick a).Inv a := by
  have hb := hi.books_of_idle (Or.inl hc)
  unfold Reader.onTick
  split_ifs with hp
  · exact Reader.Inv.of_idle (by simp [Reader.pending, hc])
      ⟨hb.chained, hb.within, hb.expected, hb.prevHash⟩ (by simp [hc]) (by simp [hc])
  · exact Reader.Inv.fail hb _

theorem Reader.Inv.onEnd (hb : r.Books a (messageBlocks r.sent ++ r.chunk)) :
    (r.onEnd a).Inv a := by
  unfold Reader.onEnd
  split_ifs with he
  · have h := Reader.Inv.flush hb [] rfl (.done (.ok ())) (by
        intro result hr
        simp only [After.done.injEq] at hr
        subst hr
        exact he) r.currentHeight
    rw [List.append_nil] at h
    exact h
  · exact Reader.Inv.fail hb _

/-- Giving up keeps what was delivered, except chunks that could not be sent. -/
theorem Reader.Inv.give {result : Except SyncError Unit} (hi : r.Inv a) (hg : Gave result) :
    { r with control := .done result }.Inv a := by
  have hdel : ∃ rest, r.delivered = ({ r with control := .done result } : Reader H).delivered ++
      rest := by
    unfold Reader.delivered Reader.pending
    cases hc : r.control with
    | sending m ms after =>
      rcases (hi.sending m ms after hc).1 with hm | hchunk
      · exact ⟨[], by simp [hm]⟩
      · exact ⟨messageBlocks (m :: ms), by simp [hchunk]⟩
    | _ => exact ⟨[], by simp⟩
  obtain ⟨rest, hrest⟩ := hdel
  have hc := hi.chained
  rw [hrest, chained_append] at hc
  refine ⟨hc.1, fun b hb => hi.within b (by rw [hrest]; exact List.mem_append_left _ hb), ?_,
    by simp, ?_⟩
  · intro h
    exact absurd hg (h result rfl)
  · intro result' hr hg'
    simp only [Control.done.injEq] at hr
    exact absurd (hr ▸ hg) hg'

theorem Reader.Inv.sent {m : BlockMessage H} {ms : List (BlockMessage H)} {after : After}
    (hi : r.Inv a) (hc : r.control = .sending m ms after) :
    ({ r with sent := r.sent ++ [m] }.send ms after).Inv a := by
  have hb := hi.books (by simp [hc])
  obtain ⟨hf, ha⟩ := hi.sending m ms after hc
  have hcons : messageBlocks (m :: ms) = messageBlocks [m] ++ messageBlocks ms := by
    simp [messageBlocks]
  have hdel : r.delivered =
      messageBlocks (r.sent ++ [m]) ++ (messageBlocks ms ++ r.chunk) := by
    simp [Reader.delivered, Reader.pending, hc, hcons]
  rw [hdel] at hb
  refine Reader.Inv.send ⟨hb.chained, hb.within, hb.expected, hb.prevHash⟩ ?_ ha
  rcases hf with hf | hf
  · rw [hcons, List.append_eq_nil_iff] at hf
    exact Or.inl hf.2
  · exact Or.inr hf

/-- Every step that does not overstep keeps the invariant. -/
theorem Reader.step_inv (r : Reader H) (e : ReaderEvent H) (r' : Reader H) (hi : r.Inv a)
    (hg : ¬ r.Oversteps a e) (hs : r.step a e = some r') : r'.Inv a := by
  unfold Reader.step at hs
  split at hs <;> simp only [Option.some.injEq, reduceCtorEq] at hs <;> subst hs
  case h_1 => exact hi.give gave_cancelled
  case h_2 hc => exact hi.onTick hc
  case h_3 b hc =>
    refine Reader.Inv.onBlock (hi.books_of_idle (Or.inl hc)) b fun hh hl => ?_
    by_contra he
    exact hg ⟨b, rfl, hc, hh, hl, by omega⟩
  case h_4 error hc => exact Reader.Inv.fail (hi.books_of_idle (Or.inl hc)) error
  case h_5 hc => exact Reader.Inv.onEnd (hi.books_of_idle (Or.inl hc))
  case h_6 m ms after hc => exact hi.sent hc
  case h_7 => exact hi.give (gave_other _)
  case h_8 => exact hi.give gave_cancelled
  case h_9 hc =>
    have hb := hi.books_of_idle (Or.inr hc)
    exact Reader.Inv.of_idle rfl ⟨hb.chained, hb.within, hb.expected, hb.prevHash⟩ (by simp)
      (by simp)
  case h_10 error hc => exact Reader.Inv.resume error (hi.books_of_idle (Or.inr hc))

end Steps

/-! ### Soundness -/

theorem Chained.end_le {prev : Option Bytes} {start last : ℕ} {bs : List (CompactBlock H)}
    (hc : Chained prev start bs) (hw : ∀ b ∈ bs, b.height ≤ last) (hne : bs ≠ []) :
    start + bs.length ≤ last + 1 := by
  have hpos := List.length_pos_iff.2 hne
  have hmem : start + (bs.length - 1) ∈ bs.map CompactBlock.height := by
    rw [hc.heights, List.mem_range'_1]
    omega
  obtain ⟨b, hb, hh⟩ := List.mem_map.1 hmem
  have := hw b hb
  omega

theorem Reader.Inv.sent_of_done {a : ReaderArgs} {r : Reader H} (hi : r.Inv a)
    {result : Except SyncError Unit} (hc : r.control = .done result) (hg : ¬ Gave result) :
    messageBlocks r.sent = r.delivered ∧ r.Books a r.delivered ∧
      ResultFits a r.expectedHeight result := by
  obtain ⟨hchunk, hfit⟩ := hi.done result hc hg
  refine ⟨by simp [Reader.delivered, Reader.pending, hc, hchunk], hi.books ?_, hfit⟩
  intro result' hr
  rw [hc, Control.done.injEq] at hr
  exact hr ▸ hg

theorem Reader.Inv.sound {a : ReaderArgs} (hwf : a.WellFormed) {r : Reader H} (hi : r.Inv a) :
    r.Sound a := by
  refine ⟨hi.chained, hi.within, fun hc => ?_, fun h hc => ?_⟩
  · obtain ⟨hsent, hb, hfit⟩ := hi.sent_of_done hc fun hg => hg.1 rfl
    have hlt : a.endHeight < a.startHeight + r.delivered.length := hb.expected ▸ hfit
    rw [hsent, hb.chained.heights]
    congr 1
    by_cases hne : r.delivered = []
    · rw [hne, List.length_nil] at hlt ⊢
      omega
    · have := hb.chained.end_le hb.within hne
      omega
  · obtain ⟨hsent, hb, hfit⟩ := hi.sent_of_done hc fun hg => hg.2 h rfl
    have hh : h = subU32 (u32 (a.startHeight + r.delivered.length)) 1 := hb.expected ▸ hfit
    obtain ⟨h1, h2, h3⟩ := hwf
    have hle : a.startHeight + r.delivered.length ≤ 2 ^ 32 := by
      by_cases hne : r.delivered = []
      · rw [hne, List.length_nil]
        omega
      · have := hb.chained.end_le hb.within hne
        omega
    rw [hsent, hb.chained.heights]
    congr 1
    unfold subU32 u32 at hh
    omega

theorem Reader.Oversteps.not_sound {a : ReaderArgs} {r r' : Reader H} {e : ReaderEvent H}
    (ho : r.Oversteps a e) (hs : r.step a e = some r') : ¬ r'.Sound a := by
  obtain ⟨b, rfl, hc, hh, hl, he⟩ := ho
  have hstep : r' = r.accept a b := by
    simp only [Reader.step, hc, Option.some.injEq] at hs
    rw [← hs, Reader.onBlock, if_neg (not_not.2 hh), if_pos hl]
  have hmem : b ∈ r'.delivered := by
    have hsend : ∀ (r : Reader H) (ms : List (BlockMessage H)),
        b ∈ messageBlocks ms ∨ b ∈ r.chunk → b ∈ (r.send ms .select).delivered := by
      intro r ms hb
      cases ms with
      | nil => simpa [Reader.send, Reader.goto, Reader.delivered, Reader.pending] using
          Or.inr (hb.resolve_left (by simp))
      | cons m ms =>
        simp only [Reader.send, Reader.delivered, Reader.pending, List.mem_append]
        exact Or.inr hb
    rw [hstep, Reader.accept]
    dsimp only
    split_ifs with hf
    · exact hsend _ _ (Or.inl (by simp))
    · exact hsend _ _ (Or.inr (by simp))
  intro hsound
  have := hsound.within b hmem
  omega

/-- In every run, the states reached are all sound exactly when no step oversteps: the
    server never sends a linked block past `endHeight`. -/
theorem readBlockStream_sound_iff (a : ReaderArgs) (hwf : a.WellFormed)
    (es : List (ReaderEvent H)) (r : Reader H) (hrun : run (Reader.step a) a.init es = some r) :
    (∀ fs gs r', es = fs ++ gs → run (Reader.step a) a.init fs = some r' → r'.Sound a) ↔
      AllSteps (Reader.step a) (fun r e => ¬ r.Oversteps a e) a.init es := by
  constructor
  · intro hall
    rw [allSteps_iff]
    intro fs e gs t he hfs ho
    have hsplit : es = (fs ++ [e]) ++ gs := by rw [he]; simp
    rw [he] at hrun
    obtain ⟨u, hu, hrest⟩ := (run_append _).1 hrun
    obtain ⟨v, hv, -⟩ := (run_cons_some _).1 hrest
    obtain rfl : u = t := Option.some.inj (hu.symm.trans hfs)
    refine ho.not_sound hv (hall (fs ++ [e]) gs v hsplit ?_)
    exact (run_append _).2 ⟨u, hu, by rw [run_singleton]; exact hv⟩
  · intro hok fs gs r' he hfs
    rw [he] at hok
    exact (run_inv_of_allSteps _ Reader.step_inv (Reader.init_inv a) (hok.append _) hfs).sound hwf

theorem allSteps_of_within (a : ReaderArgs) (es : List (ReaderEvent H)) (r : Reader H)
    (hw : ∀ b, .block b ∈ es → b.height ≤ a.endHeight) :
    AllSteps (Reader.step a) (fun r e => ¬ r.Oversteps a e) r es := by
  rw [allSteps_iff]
  rintro fs e gs t he - ⟨b, rfl, -, -, -, hb⟩
  have := hw b (by simp [he])
  omega

/-! ### Instances -/

def sampleArgs : ReaderArgs :=
  { startHeight := 10, endHeight := 11, prevHash := some [9], accountIds := [7],
    heightsWithoutTime := [], actionsPerSync := 100 }

def sampleReplies : List (ReaderEvent ℕ) :=
  [.block (sampleBlock 10 []), .streamError "broken", .sent, .reopened,
    .block (sampleBlock 11 []), .streamEnd, .sent]

/-- A stream that breaks after its first block and is reopened. -/
theorem sampleReplies_sound :
    ∃ r, run (Reader.step sampleArgs) sampleArgs.init sampleReplies = some r ∧ r.Sound sampleArgs := by
  refine ⟨_, rfl, ?_⟩
  exact (readBlockStream_sound_iff sampleArgs ⟨by decide, by decide, by decide⟩ sampleReplies _ rfl).2
    (allSteps_of_within _ _ _ (by simp [sampleReplies, sampleArgs, sampleBlock]))
    sampleReplies [] _ (by simp) rfl

def surplusReplies : List (ReaderEvent ℕ) :=
  [.block (sampleBlock 10 []), .block (sampleBlock 11 []), .block (sampleBlock 12 []), .streamEnd,
    .sent]

/-- One linked block too many is delivered, and the reader returns `Ok`. -/
theorem surplusReplies_delivered :
    ∃ r, run (Reader.step sampleArgs) sampleArgs.init surplusReplies = some r ∧
      r.control = .done (.ok ()) ∧
      (messageBlocks r.sent).map CompactBlock.height = [10, 11, 12] ∧ ¬ r.Sound sampleArgs := by
  refine ⟨_, rfl, rfl, rfl, fun hs => ?_⟩
  have hh := hs.ok rfl
  exact absurd hh (by decide)

end ZcashSdk.Warp
