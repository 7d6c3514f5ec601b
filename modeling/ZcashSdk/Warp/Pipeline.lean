import ZcashSdk.Warp.ReaderSound

set_option autoImplicit false

/-!
# Reader, channel and processor

`warp_sync` joins the block reader and the chunk processor over a channel of two
messages. The receiving half belongs to the frame of `warp_sync`, the processor only
borrows it: a processor that returns early leaves the channel open, and a send on a full
channel then waits for ever. Nothing else of the reader waits with the send, not even the
cancel signal.
-/
namespace ZcashSdk.Warp
open Shielded Runs

variable {H : Type}

def channelCapacity : ℕ := 2

inductive Processor (H : Type) where
  | idle
  | busy (message : BlockMessage H)
  | done (result : Except SyncError Unit)

structure Pipeline (H : Type) where
  reader : Reader H
  queue : List (BlockMessage H)
  processor : Processor H
  /-- How many messages the processor took from the channel. -/
  received : ℕ

inductive PipelineEvent (H : Type) where
  /-- What the reader observes outside a send. -/
  | reader (e : ReaderEvent H)
  | send
  | recv
  | processed
  /-- A synchronizer error, or the database channel is closed. -/
  | failed (error : SyncError)
  | hangup

def ReaderArgs.initPipeline (a : ReaderArgs) : Pipeline H :=
  { reader := a.init, queue := [], processor := .idle, received := 0 }

def BlockMessage.isReorg : BlockMessage H → Bool
  | .reorg _ _ => true
  | _ => false

/-- A send waits for room; the processor stops after a reorg. -/
def Pipeline.step (a : ReaderArgs) (p : Pipeline H) (e : PipelineEvent H) : Option (Pipeline H) :=
  match e, p.processor with
  | .reader .sent, _ => none
  | .reader .closed, _ => none
  | .reader e, _ => (p.reader.step a e).map fun r => { p with reader := r }
  | .send, _ =>
    match p.reader.control with
    | .sending m _ _ =>
      if p.queue.length < channelCapacity then
        (p.reader.step a .sent).map fun r => { p with reader := r, queue := p.queue ++ [m] }
      else none
    | _ => none
  | .recv, .idle =>
    match p.queue with
    | m :: q => some { p with queue := q, processor := .busy m, received := p.received + 1 }
    | [] => none
  | .processed, .busy m =>
    some { p with processor := if m.isReorg then .done (.ok ()) else .idle }
  | .failed error, .busy _ => some { p with processor := .done (.error error) }
  | .hangup, .idle =>
    match p.queue, p.reader.control with
    | [], .done _ => some { p with processor := .done (.ok ()) }
    | _, _ => none
  | _, _ => none

/-- Both futures of the join are ready, so `warp_sync` returns. -/
def Pipeline.Finished (p : Pipeline H) : Prop :=
  (∃ result, p.reader.control = .done result) ∧ ∃ result, p.processor = .done result

def Pipeline.CanFinish (a : ReaderArgs) (p : Pipeline H) : Prop :=
  ∃ es q, run (Pipeline.step a) p es = some q ∧ q.Finished

def Pipeline.Failed (p : Pipeline H) : Prop := ∃ error, p.processor = .done (.error error)

def Pipeline.produced (p : Pipeline H) : ℕ := p.reader.sent.length + p.reader.pending.length

/-! ### The reorg message is the last one -/

def ReorgEnds (ms : List (BlockMessage H)) (after : After) : Prop :=
  ∀ before m rest, ms = before ++ m :: rest → m.isReorg = true →
    rest = [] ∧ ∃ result, after = .done result

/-- From `r` to `r'` nothing is sent, and a reorg ends what `r'` has to send. -/
structure Queues (r r' : Reader H) : Prop where
  sent : r'.sent = r.sent
  ends : ∀ m ms after, r'.control = .sending m ms after → ReorgEnds (m :: ms) after

theorem reorgEnds_of_none {ms : List (BlockMessage H)} (after : After)
    (hn : ∀ m ∈ ms, m.isReorg = false) : ReorgEnds ms after := by
  rintro before m rest rfl hm
  rw [hn m (by simp)] at hm
  exact absurd hm (by simp)

theorem Reader.resume_control (r : Reader H) (error : String) :
    (r.resume error).sent = r.sent ∧
      ((r.resume error).control = .reopening ∨ ∃ result, (r.resume error).control = .done result) := by
  unfold Reader.resume
  dsimp only
  split
  · exact ⟨rfl, Or.inr ⟨_, rfl⟩⟩
  · exact ⟨rfl, Or.inl rfl⟩

theorem Reader.goto_control (r : Reader H) (after : After) :
    (r.goto after).sent = r.sent ∧ ∀ m ms after', (r.goto after).control ≠ .sending m ms after' := by
  cases after with
  | select => exact ⟨rfl, by simp [Reader.goto]⟩
  | done result => exact ⟨rfl, by simp [Reader.goto]⟩
  | resume error =>
    obtain ⟨hs, hc | ⟨result, hc⟩⟩ := r.resume_control error
    · exact ⟨hs, by simp [Reader.goto, hc]⟩
    · exact ⟨hs, by simp [Reader.goto, hc]⟩

theorem Reader.send_sent (r : Reader H) (ms : List (BlockMessage H)) (after : After) :
    (r.send ms after).sent = r.sent := by
  cases ms with
  | nil => exact (r.goto_control after).1
  | cons m ms => rfl

theorem Reader.send_pending (r : Reader H) (ms : List (BlockMessage H)) (after : After) :
    (r.send ms after).pending = ms := by
  cases ms with
  | nil =>
    have hn := (r.goto_control after).2
    unfold Reader.send Reader.pending
    dsimp only
    split
    · exact absurd ‹_› (hn _ _ _)
    · rfl
  | cons m ms => rfl

theorem Queues.send {r x : Reader H} {ms : List (BlockMessage H)} {after : After}
    (hx : x.sent = r.sent) (hm : ReorgEnds ms after) : Queues r (x.send ms after) := by
  refine ⟨by rw [x.send_sent, hx], fun m' ms' after' hc => ?_⟩
  cases ms with
  | nil => exact absurd hc ((x.goto_control after).2 m' ms' after')
  | cons m ms =>
    simp only [Reader.send, Control.sending.injEq] at hc
    obtain ⟨rfl, rfl, rfl⟩ := hc
    exact hm

theorem Queues.resume (r : Reader H) (error : String) : Queues r (r.resume error) := by
  obtain ⟨hs, hc | ⟨result, hc⟩⟩ := r.resume_control error
  · exact ⟨hs, by simp [hc]⟩
  · exact ⟨hs, by simp [hc]⟩

theorem flushChunk_reorg (chunk : List (CompactBlock H)) :
    ∀ m ∈ flushChunk chunk, m.isReorg = false := by
  cases chunk <;> simp [flushChunk, BlockMessage.isReorg]

theorem missingHeader_reorg (r : Reader H) (b : CompactBlock H) :
    ∀ m ∈ r.missingHeader b, m.isReorg = false := by
  unfold Reader.missingHeader
  split_ifs <;> simp [BlockMessage.isReorg]

theorem Queues.fail (a : ReaderArgs) (r : Reader H) (error : String) :
    Queues r (r.fail a error) :=
  Queues.send rfl (reorgEnds_of_none _ (flushChunk_reorg r.chunk))

theorem Queues.accept (a : ReaderArgs) (r : Reader H) (b : CompactBlock H) :
    Queues r (r.accept a b) := by
  unfold Reader.accept
  dsimp only
  split_ifs
  · refine Queues.send rfl (reorgEnds_of_none _ fun m hm => ?_)
    rcases List.mem_append.1 hm with hm | hm
    · exact missingHeader_reorg r b m hm
    · exact flushChunk_reorg _ m hm
  · exact Queues.send rfl (reorgEnds_of_none _ (missingHeader_reorg r b))

theorem Queues.onBlock (a : ReaderArgs) (r : Reader H) (b : CompactBlock H) :
    Queues r (r.onBlock a b) := by
  unfold Reader.onBlock
  split_ifs
  · exact Queues.send rfl (reorgEnds_of_none _ (flushChunk_reorg r.chunk))
  · exact Queues.accept a r b
  · refine Queues.send rfl fun before m rest he hm => ⟨?_, _, rfl⟩
    -- no message of the flush is a reorg, so this one is the last
    by_contra hne
    obtain ⟨init, x, rfl⟩ := List.eq_nil_or_concat rest |>.resolve_left hne
    rw [List.concat_eq_append, ← List.cons_append, ← List.append_assoc] at he
    have hmem : m ∈ flushChunk r.chunk := by
      rw [(List.append_inj' he rfl).1]
      simp
    rw [flushChunk_reorg _ m hmem] at hm
    exact absurd hm (by simp)

theorem Queues.onTick (a : ReaderArgs) (r : Reader H) (hc : r.control = .select) :
    Queues r (r.onTick a) := by
  unfold Reader.onTick
  split_ifs
  · exact ⟨rfl, by simp [hc]⟩
  · exact Queues.fail a r _

theorem Queues.onEnd (a : ReaderArgs) (r : Reader H) : Queues r (r.onEnd a) := by
  unfold Reader.onEnd
  split_ifs
  · exact Queues.send rfl (reorgEnds_of_none _ (flushChunk_reorg r.chunk))
  · exact Queues.fail a r _

theorem Reader.step_queues {a : ReaderArgs} {r r' : Reader H} {e : ReaderEvent H}
    (hs : r.step a e = some r') (h1 : e ≠ .sent) (h2 : e ≠ .closed) :
    (r.control = .select ∨ r.control = .reopening) ∧ Queues r r' := by
  unfold Reader.step at hs
  split at hs <;> simp only [Option.some.injEq, reduceCtorEq] at hs <;> subst hs
  case h_1 hc => exact ⟨Or.inl hc, rfl, by simp⟩
  case h_2 hc => exact ⟨Or.inl hc, Queues.onTick a r hc⟩
  case h_3 b hc => exact ⟨Or.inl hc, Queues.onBlock a r b⟩
  case h_4 error hc => exact ⟨Or.inl hc, Queues.fail a r error⟩
  case h_5 hc => exact ⟨Or.inl hc, Queues.onEnd a r⟩
  case h_6 => exact absurd rfl h1
  case h_7 => exact absurd rfl h2
  case h_8 hc => exact ⟨Or.inr hc, rfl, by simp⟩
  case h_9 hc => exact ⟨Or.inr hc, rfl, by simp⟩
  case h_10 error hc => exact ⟨Or.inr hc, Queues.resume r error⟩

/-! ### The invariant -/

/-- The processor's own message and those waiting for it were sent last, and a reorg among
    all that was sent means that the reader has returned. -/
structure Pipeline.Inv (p : Pipeline H) : Prop where
  count : p.reader.sent.length = p.received + p.queue.length
  room : p.queue.length ≤ channelCapacity
  queued : ∀ m ∈ p.queue, m ∈ p.reader.sent
  busy : ∀ m, p.processor = .busy m → m ∈ p.reader.sent
  ends : ∀ m ms after, p.reader.control = .sending m ms after → ReorgEnds (m :: ms) after
  reorg : (∃ m ∈ p.reader.sent, m.isReorg = true) → ∃ result, p.reader.control = .done result
  finished : p.processor = .done (.ok ()) → ∃ result, p.reader.control = .done result

theorem Pipeline.init_inv (a : ReaderArgs) : (a.initPipeline : Pipeline H).Inv := by
  constructor <;> simp [ReaderArgs.initPipeline, ReaderArgs.init]

theorem Pipeline.step_send {a : ReaderArgs} {p : Pipeline H} {m : BlockMessage H}
    {ms : List (BlockMessage H)} {after : After} (hc : p.reader.control = .sending m ms after)
    (hq : p.queue.length < channelCapacity) :
    p.step a .send = some { p with
      reader := { p.reader with sent := p.reader.sent ++ [m] }.send ms after
      queue := p.queue ++ [m] } := by
  simp [Pipeline.step, Reader.step, hc, hq]

theorem Pipeline.Inv.send {p : Pipeline H} (hi : p.Inv) {m : BlockMessage H}
    {ms : List (BlockMessage H)} {after : After} (hc : p.reader.control = .sending m ms after)
    (hq : p.queue.length < channelCapacity) :
    ({ p with
      reader := { p.reader with sent := p.reader.sent ++ [m] }.send ms after
      queue := p.queue ++ [m] } : Pipeline H).Inv := by
  have hends := hi.ends m ms after hc
  have hms : ReorgEnds ms after := fun before x rest he hx =>
    hends (m :: before) x rest (by rw [he]; rfl) hx
  have hq' := Queues.send (r := { p.reader with sent := p.reader.sent ++ [m] }) rfl hms
  have hnone : ∀ x ∈ p.reader.sent, x.isReorg = false := by
    intro x hx
    by_contra hr
    obtain ⟨result, hd⟩ := hi.reorg ⟨x, hx, by simpa using hr⟩
    rw [hc] at hd
    exact absurd hd (by simp)
  refine ⟨?_, ?_, ?_, ?_, hq'.ends, ?_, ?_⟩
  · rw [Reader.send_sent, List.length_append, List.length_append, hi.count]
    simp only [List.length_singleton]
    omega
  · simp only [List.length_append, List.length_singleton]
    omega
  · intro x hx
    rw [Reader.send_sent]
    rcases List.mem_append.1 hx with hx | hx
    · exact List.mem_append_left _ (hi.queued x hx)
    · exact List.mem_append_right _ hx
  · intro x hx
    rw [Reader.send_sent]
    exact List.mem_append_left _ (hi.busy x hx)
  · rintro ⟨x, hx, hr⟩
    rw [Reader.send_sent] at hx
    rcases List.mem_append.1 hx with hx | hx
    · rw [hnone x hx] at hr
      exact absurd hr (by simp)
    · rw [List.mem_singleton.1 hx] at hr
      obtain ⟨rfl, result, rfl⟩ := hends [] m ms rfl hr
      exact ⟨result, rfl⟩
  · intro hd
    obtain ⟨result, hr⟩ := hi.finished hd
    rw [hc] at hr
    exact absurd hr (by simp)

theorem Pipeline.Inv.reader {p : Pipeline H} (hi : p.Inv) {a : ReaderArgs} {e : ReaderEvent H}
    {r : Reader H} (hs : p.reader.step a e = some r) (h1 : e ≠ .sent) (h2 : e ≠ .closed) :
    ({ p with reader := r } : Pipeline H).Inv := by
  obtain ⟨hc, hq⟩ := Reader.step_queues hs h1 h2
  have hnot : ¬ ∃ result, p.reader.control = .done result := by
    rintro ⟨result, hd⟩
    rcases hc with hc | hc <;> simp [hc] at hd
  refine ⟨by rw [hq.sent]; exact hi.count, hi.room, by rw [hq.sent]; exact hi.queued,
    by rw [hq.sent]; exact hi.busy, hq.ends, ?_, fun hd => absurd (hi.finished hd) hnot⟩
  rw [hq.sent]
  exact fun hr => absurd (hi.reorg hr) hnot

theorem Pipeline.step_cases {a : ReaderArgs} {p q : Pipeline H} {e : PipelineEvent H}
    (hs : p.step a e = some q) :
    (∃ f r, f ≠ .sent ∧ f ≠ .closed ∧ p.reader.step a f = some r ∧ q = { p with reader := r }) ∨
    (∃ m ms after, p.reader.control = .sending m ms after ∧ p.queue.length < channelCapacity ∧
      q = { p with
        reader := { p.reader with sent := p.reader.sent ++ [m] }.send ms after
        queue := p.queue ++ [m] }) ∨
    (∃ m ms, p.processor = .idle ∧ p.queue = m :: ms ∧
      q = { p with queue := ms, processor := .busy m, received := p.received + 1 }) ∨
    (∃ m, p.processor = .busy m ∧
      q = { p with processor := if m.isReorg then .done (.ok ()) else .idle }) ∨
    (∃ m error, p.processor = .busy m ∧ q = { p with processor := .done (.error error) }) ∨
    (p.processor = .idle ∧ p.queue = [] ∧ (∃ result, p.reader.control = .done result) ∧
      q = { p with processor := .done (.ok ()) }) := by
  unfold Pipeline.step at hs
  split at hs
  case h_1 => simp at hs
  case h_2 => simp at hs
  case h_3 _ f h1 h2 =>
    obtain ⟨r, hr, rfl⟩ := Option.map_eq_some_iff.1 hs
    exact Or.inl ⟨f, r, h1, h2, hr, rfl⟩
  case h_4 =>
    split at hs
    case h_1 m ms after hc =>
      split_ifs at hs with hq
      simp only [Reader.step, hc, Option.map_some, Option.some.injEq] at hs
      exact Or.inr (Or.inl ⟨m, ms, after, hc, hq, hs.symm⟩)
    case h_2 => simp at hs
  case h_5 hp =>
    split at hs
    case h_1 m ms hq =>
      rw [Option.some.injEq] at hs
      exact Or.inr (Or.inr (Or.inl ⟨m, ms, hp, hq, hs.symm⟩))
    case h_2 => simp at hs
  case h_6 m hp =>
    rw [Option.some.injEq] at hs
    exact Or.inr (Or.inr (Or.inr (Or.inl ⟨m, hp, hs.symm⟩)))
  case h_7 error m hp =>
    rw [Option.some.injEq] at hs
    exact Or.inr (Or.inr (Or.inr (Or.inr (Or.inl ⟨m, error, hp, hs.symm⟩))))
  case h_8 hp =>
    split at hs
    case h_1 result hq hc =>
      rw [Option.some.injEq] at hs
      exact Or.inr (Or.inr (Or.inr (Or.inr (Or.inr ⟨hp, hq, ⟨result, hc⟩, hs.symm⟩))))
    case h_2 => simp at hs
  case h_9 => simp at hs

theorem Pipeline.step_inv {a : ReaderArgs} (p : Pipeline H) (e : PipelineEvent H)
    (q : Pipeline H) (hi : p.Inv) (hs : p.step a e = some q) : q.Inv := by
  rcases Pipeline.step_cases hs with ⟨f, r, h1, h2, hr, rfl⟩ | ⟨m, ms, after, hc, hq, rfl⟩ |
    ⟨m, ms, hp, hq, rfl⟩ | ⟨m, hp, rfl⟩ | ⟨m, error, hp, rfl⟩ | ⟨hp, hq, hd, rfl⟩
  · exact hi.reader hr h1 h2
  · exact hi.send hc hq
  · have hcount := hi.count
    have hroom := hi.room
    rw [hq, List.length_cons] at hcount hroom
    refine ⟨by simp only; omega, by simp only; omega, fun x hx => hi.queued x (by simp [hq, hx]),
      ?_, hi.ends, hi.reorg, by simp⟩
    intro x hx
    simp only [Processor.busy.injEq] at hx
    exact hi.queued x (by simp [hq, hx])
  · refine ⟨hi.count, hi.room, hi.queued, ?_, hi.ends, hi.reorg, ?_⟩
    · intro x hx
      simp only at hx
      split_ifs at hx
    · intro hd
      simp only at hd
      split_ifs at hd with hr
      exact hi.reorg ⟨m, hi.busy m hp, hr⟩
  · exact ⟨hi.count, hi.room, hi.queued, by simp, hi.ends, hi.reorg, by simp⟩
  · exact ⟨hi.count, hi.room, hi.queued, by simp, hi.ends, hi.reorg, fun _ => hd⟩

/-! ### When the pipeline can finish -/

/-- The processor failed and the reader has more to send than the channel holds. -/
def Pipeline.Overfull (p : Pipeline H) : Prop :=
  p.Failed ∧ p.received + channelCapacity < p.produced

theorem Pipeline.pending_ne_nil {p : Pipeline H} (hi : p.Inv)
    (ho : p.received + channelCapacity < p.produced) : p.reader.pending ≠ [] := by
  intro hp
  have hc := hi.count
  have hr := hi.room
  unfold Pipeline.produced at ho
  rw [hp, List.length_nil] at ho
  omega

theorem Reader.pending_eq_cons {r : Reader H} (hp : r.pending ≠ []) :
    ∃ m ms after, r.control = .sending m ms after := by
  unfold Reader.pending at hp
  split at hp
  · exact ⟨_, _, _, ‹_›⟩
  · exact absurd rfl hp

/-- A send moves a message, it produces none. -/
theorem Pipeline.produced_send {p : Pipeline H} {m : BlockMessage H} {ms : List (BlockMessage H)}
    {after : After} (hc : p.reader.control = .sending m ms after) (q : List (BlockMessage H)) :
    ({ p with
      reader := { p.reader with sent := p.reader.sent ++ [m] }.send ms after
      queue := q } : Pipeline H).produced = p.produced := by
  unfold Pipeline.produced
  rw [Reader.send_sent, Reader.send_pending]
  simp only [Reader.pending, hc, List.length_append, List.length_cons, List.length_nil]
  omega

/-- Nothing but a send is possible once the pipeline is overfull, and it stays so. -/
theorem Pipeline.Overfull.step {a : ReaderArgs} {p q : Pipeline H} {e : PipelineEvent H}
    (hi : p.Inv) (ho : p.Overfull) (hs : p.step a e = some q) : q.Overfull := by
  obtain ⟨⟨error, hf⟩, hlt⟩ := ho
  obtain ⟨m, ms, after, hc⟩ := Reader.pending_eq_cons (Pipeline.pending_ne_nil hi hlt)
  rcases Pipeline.step_cases hs with ⟨f, r, h1, h2, hr, rfl⟩ | ⟨m', ms', after', hc', -, rfl⟩ |
    ⟨x, xs, hp, -⟩ | ⟨x, hp, -⟩ | ⟨x, err, hp, -⟩ | ⟨hp, -⟩
  · rcases (Reader.step_queues hr h1 h2).1 with h | h <;> rw [hc] at h <;> simp at h
  · exact ⟨⟨error, hf⟩, by rw [Pipeline.produced_send hc']; exact hlt⟩
  all_goals rw [hf] at hp; simp at hp

theorem Pipeline.Overfull.not_canFinish {a : ReaderArgs} {p : Pipeline H} (hi : p.Inv)
    (ho : p.Overfull) : ¬ p.CanFinish a := by
  rintro ⟨es, q, hrun, ⟨result, hd⟩, -⟩
  have hq := run_inv _ (fun p : Pipeline H => p.Inv ∧ p.Overfull)
    (fun p e q h hs => ⟨Pipeline.step_inv p e q h.1 hs, h.2.step h.1 hs⟩) ⟨hi, ho⟩ hrun
  obtain ⟨m, ms, after, hc⟩ := Reader.pending_eq_cons (Pipeline.pending_ne_nil hq.1 hq.2.2)
  rw [hd] at hc
  simp at hc

theorem Pipeline.CanFinish.of_step {a : ReaderArgs} {p q : Pipeline H} {e : PipelineEvent H}
    (hs : p.step a e = some q) (hq : q.CanFinish a) : p.CanFinish a := by
  obtain ⟨es, t, hrun, hf⟩ := hq
  exact ⟨e :: es, t, (run_cons_some _).2 ⟨q, hs, hrun⟩, hf⟩

theorem Reader.cancel (a : ReaderArgs) (r : Reader H) (hp : r.pending = [])
    (hd : ∀ result, r.control ≠ .done result) :
    r.step a .cancel = some { r with control := .done (.error .cancelled) } := by
  cases hc : r.control with
  | select => simp [Reader.step, hc]
  | reopening => simp [Reader.step, hc]
  | sending m ms after => simp [Reader.pending, hc] at hp
  | done result => exact absurd hc (hd result)

/-- Work left: every message is sent, received and processed once. -/
def Pipeline.work (p : Pipeline H) : ℕ :=
  3 * p.reader.pending.length + 2 * p.queue.length +
    match p.processor with
    | .busy _ => 1
    | _ => 0

theorem Pipeline.send_progress {a : ReaderArgs} {p : Pipeline H} (hi : p.Inv)
    (ho : ¬ p.Overfull) (hp : p.reader.pending ≠ []) (hq : p.queue.length < channelCapacity) :
    ∃ q, p.step a .send = some q ∧ q.Inv ∧ ¬ q.Overfull ∧ q.work < p.work := by
  obtain ⟨m, ms, after, hc⟩ := Reader.pending_eq_cons hp
  refine ⟨_, Pipeline.step_send hc hq, hi.send hc hq, fun h => ho ⟨h.1, ?_⟩, ?_⟩
  · have := h.2
    rw [Pipeline.produced_send hc] at this
    exact this
  · unfold Pipeline.work
    simp only [Reader.send_pending, List.length_append, List.length_singleton]
    simp only [Reader.pending, hc, List.length_cons]
    split <;> omega

/-- With nothing pending the reader has returned or returns on the cancel signal. -/
theorem Pipeline.end_reader {a : ReaderArgs} {p : Pipeline H} (hp : p.reader.pending = [])
    (hnext : ∀ r result, r.control = .done result →
      ({ p with reader := r } : Pipeline H).CanFinish a) : p.CanFinish a := by
  by_cases hd : ∃ result, p.reader.control = .done result
  · obtain ⟨result, hd⟩ := hd
    exact hnext p.reader result hd
  · have hstep : p.step a (.reader .cancel) = some { p with
        reader := { p.reader with control := .done (.error .cancelled) } } := by
      simp [Pipeline.step, Reader.cancel a p.reader hp fun result h => hd ⟨result, h⟩]
    exact Pipeline.CanFinish.of_step hstep (hnext _ _ rfl)

theorem Pipeline.canFinish {a : ReaderArgs} (n : ℕ) (p : Pipeline H) (hn : p.work ≤ n)
    (hi : p.Inv) (ho : ¬ p.Overfull) : p.CanFinish a := by
  induction n using Nat.strong_induction_on generalizing p with
  | _ n ih =>
    have hgo : ∀ e q, p.step a e = some q → q.work < p.work → ¬ q.Overfull → p.CanFinish a :=
      fun e q hs hw hq => Pipeline.CanFinish.of_step hs
        (ih q.work (by omega) q le_rfl (Pipeline.step_inv p e q hi hs) hq)
    have hsend : p.reader.pending ≠ [] → p.queue.length < channelCapacity → p.CanFinish a := by
      intro hp hq
      obtain ⟨q, hs, -, hqo, hw⟩ := Pipeline.send_progress hi ho hp hq
      exact hgo _ q hs hw hqo
    have hfull : p.reader.pending ≠ [] → p.queue.length < channelCapacity ∨ ¬ p.Failed := by
      intro hp
      by_contra hc
      obtain ⟨hq, hf⟩ := not_or.1 hc
      refine ho ⟨not_not.1 hf, ?_⟩
      have := hi.count
      have := List.length_pos_iff.2 hp
      unfold Pipeline.produced
      omega
    cases hproc : p.processor with
    | busy m =>
      refine hgo .processed
        { p with processor := if m.isReorg then .done (.ok ()) else .idle }
        (by simp only [Pipeline.step, hproc]) ?_ ?_
      · unfold Pipeline.work
        rw [hproc]
        split_ifs <;> simp
      · rintro ⟨⟨error, he⟩, -⟩
        simp only at he
        split_ifs at he
        simp at he
    | idle =>
      cases hq : p.queue with
      | cons m q =>
        refine hgo .recv { p with queue := q, processor := .busy m, received := p.received + 1 }
          (by simp only [Pipeline.step, hproc, hq]) ?_ ?_
        · unfold Pipeline.work
          rw [hproc, hq]
          simp only [List.length_cons]
          omega
        · rintro ⟨⟨error, he⟩, -⟩
          simp at he
      | nil =>
        by_cases hp : p.reader.pending = []
        · refine Pipeline.end_reader hp fun r result hd => ?_
          refine ⟨[.hangup], { p with reader := r, processor := .done (.ok ()) }, ?_,
            ⟨result, hd⟩, _, rfl⟩
          simp [run_singleton, Pipeline.step, hproc, hq, hd]
        · exact hsend hp (by rw [hq]; exact Nat.zero_lt_two)
    | done result =>
      by_cases hp : p.reader.pending = []
      · exact Pipeline.end_reader hp fun r res hd =>
          ⟨[], _, rfl, ⟨res, hd⟩, result, hproc⟩
      · rcases hfull hp with hq | hf
        · exact hsend hp hq
        · cases result with
          | error error => exact absurd ⟨error, hproc⟩ hf
          | ok u =>
            obtain ⟨res, hd⟩ := hi.finished hproc
            exact absurd (by simp [Reader.pending, hd]) hp

/-- In every reachable state the scan can come to its end, exactly when the processor has
    not failed or the reader has no more than two messages beyond those it received. -/
theorem warpSync_canFinish_iff (a : ReaderArgs) (es : List (PipelineEvent H)) (p : Pipeline H)
    (hrun : run (Pipeline.step a) a.initPipeline es = some p) :
    p.CanFinish a ↔ ¬ (p.Failed ∧ p.received + channelCapacity < p.produced) := by
  have hi := run_inv _ Pipeline.Inv Pipeline.step_inv (Pipeline.init_inv a) hrun
  exact ⟨fun hf ho => Pipeline.Overfull.not_canFinish hi ho hf,
    fun ho => Pipeline.canFinish _ p le_rfl hi ho⟩

/-! ### Instances -/

def eagerArgs : ReaderArgs := { sampleArgs with endHeight := 20, actionsPerSync := 0 }

def chunkEvents (height : ℕ) : List (PipelineEvent ℕ) :=
  [.reader (.block (sampleBlock height [])), .send]

/-- The processor fails on its first chunk while one more waits in the channel. -/
def oneLeft : List (PipelineEvent ℕ) :=
  chunkEvents 10 ++ [.recv, .failed (.other "sending block header")] ++ chunkEvents 11

theorem oneLeft_canFinish :
    ∃ p, run (Pipeline.step eagerArgs) eagerArgs.initPipeline oneLeft = some p ∧ p.Failed ∧
      p.CanFinish eagerArgs := by
  obtain ⟨p, hp⟩ : ∃ p, run (Pipeline.step eagerArgs) eagerArgs.initPipeline oneLeft = some p :=
    ⟨_, rfl⟩
  have hcount : (run (Pipeline.step eagerArgs) eagerArgs.initPipeline oneLeft).map
      (fun p => (p.received, p.produced)) = some (1, 2) := rfl
  have hfail : (run (Pipeline.step eagerArgs) eagerArgs.initPipeline oneLeft).map
      Pipeline.processor = some (.done (.error (.other "sending block header"))) := rfl
  rw [hp, Option.map_some, Option.some.injEq] at hcount hfail
  refine ⟨p, hp, ⟨_, hfail⟩, (warpSync_canFinish_iff eagerArgs oneLeft p hp).2 fun ho => ?_⟩
  have hlt := ho.2
  rw [(Prod.mk.inj hcount).1, (Prod.mk.inj hcount).2] at hlt
  exact absurd hlt (by decide)

/-- Three more chunks after the one on which the processor fails: the reader waits for ever,
    whatever happens. -/
theorem failed_processor_deadlock :
    ∃ p, run (Pipeline.step eagerArgs) eagerArgs.initPipeline
        (chunkEvents 10 ++ [.recv, .failed (.other "sending block header")] ++ chunkEvents 11 ++
          chunkEvents 12 ++ [.reader (.block (sampleBlock 13 []))]) = some p ∧
      p.Failed ∧ (∀ e, p.step eagerArgs e = none) ∧ ¬ p.Finished := by
  refine ⟨_, rfl, ⟨_, rfl⟩, fun e => ?_, fun hf => ?_⟩
  · cases e with
    | reader e => cases e <;> rfl
    | _ => rfl
  · obtain ⟨⟨result, hd⟩, -⟩ := hf
    exact absurd hd (by rintro ⟨⟩)

end ZcashSdk.Warp
