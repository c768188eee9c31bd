import CobsIoAsync.Connection.Rest
import CobsIoAsync.Network.Traffic

/-!
# Network.Completion — two connections that are polled again and again

Over links that lose nothing, what two connections move is bounded by the packets that were
accepted.  So where both are polled again and again, a round comes in which nothing is moved; and
over links that are not late either, such a round leaves nothing on its way.
-/

namespace CobsIoAsync.Connection

open Reasoning Protocol

variable {T C W E : Type} {N : Nat}
variable {T' C' W' E' : Type} {N' : Nat}

/-! ## A bound -/

/-- Every packet fits. -/
theorem Reliable.Reachable.length_queued_le [Target] [Waker W] [Transport T W E] [Timer C W]
    {s : Reliable T C W E N} (h : s.Reachable)
    {payload : List UInt8} (hmem : payload ∈ queued s.trace) :
    payload.length ≤ Reliable.maxPayload N := by
  obtain ⟨event, hevent, hqueued⟩ := List.mem_filterMap.mp hmem
  cases event with
  | queued seq payload' =>
      obtain rfl : payload' = payload := Option.some.inj hqueued
      obtain ⟨before, after, htrace⟩ := List.append_of_mem hevent
      obtain ⟨s₁, s₂, -, hmove, -, rfl, hs₂⟩ := h.event htrace
      exact (hmove.of_queued_payload hs₂).2
  | _ => cases hqueued

theorem length_flatten_le {α : Type} {l : List (List α)} {n : Nat}
    (h : ∀ xs ∈ l, xs.length ≤ n) : l.flatten.length ≤ n * l.length := by
  rw [List.length_flatten, Nat.mul_comm]
  refine (List.sum_le_card_nsmul _ n ?_).trans (by simp)
  intro k hk
  obtain ⟨xs, hxs, rfl⟩ := List.mem_map.mp hk
  exact h xs hxs

/-- Whether a call reads bytes. -/
def Call.reads : Call W → Bool
  | .read _ buf => !buf.isEmpty
  | _ => false

theorem Call.exists_of_reads {call : Call W} (h : call.reads) :
    (∃ cx buf, call = .read cx buf) ∧ call.drives := by
  cases call with
  | read cx buf => exact ⟨⟨cx, buf, rfl⟩, h⟩
  | _ => cases h

namespace Fifo

variable {p p' p'' : Peers T C W E N T' C' W' E' N'}

/-- Everything that the two connections moved. -/
def moved (p : Peers T C W E N T' C' W' E' N') : Nat := p.a.moved + p.b.moved

/-- What two connections may move, in terms of the packets that were accepted. -/
def limit (p : Peers T C W E N T' C' W' E' N') : Nat :=
  (3 * N + 46) * p.a.sendable + (3 * N' + 46) * p.b.sendable

/-- Time passes when nothing else happens: where nothing is moved, no deadline is still to come. -/
def Patient (p p' : Peers T C W E N T' C' W' E' N') : Prop :=
  moved p' = moved p → ∀ events cx deadline, p'.a.trace = p.a.trace ++ events →
    .pollDeadline cx deadline .pending ∉ events

variable {calls : Call W → Bool} {calls' : Call W' → Bool}

/-- What a round leaves of one side in which nothing was moved. -/
structure Idle (calls : Call W → Bool) (p p' : Peers T C W E N T' C' W' E' N') : Prop where
  resting : p'.a.Resting
  received : received p'.a.trace = accepted p'.b.trace
  unread : (∀ call, calls call → call.reads) → p'.a.unread = []
  deadline : p'.a.tx = .waiting → ∃ events cx, p'.a.trace = p.a.trace ++ events ∧
    .pollDeadline cx p'.a.txDeadline .pending ∈ events

/-- The left side has nothing in flight, or waits for a deadline that has not come. -/
def Waits (p p' : Peers T C W E N T' C' W' E' N') : Prop :=
  p'.a.tx = .idle ∨ p'.a.tx = .waiting ∧ ∃ events cx, p'.a.trace = p.a.trace ++ events ∧
    .pollDeadline cx p'.a.txDeadline .pending ∈ events

theorem Idle.waits (h : Idle calls p p') : Waits p p' :=
  h.resting.tx.imp_right fun hwaiting => ⟨hwaiting.1, h.deadline hwaiting.1⟩

theorem Idle.quiet (h : Idle calls p p') (h' : Idle calls' p.swap p'.swap) : Quiet p' :=
  ⟨⟨h.resting.out, h.resting.ack⟩, ⟨h'.resting.out, h'.resting.ack⟩, h.received, h'.received⟩

theorem Idle.tx (h : Idle calls p p') (hpatient : Patient p p') (hmoved : moved p' = moved p) :
    p'.a.tx = .idle := by
  refine h.resting.tx.resolve_right fun hwaiting => ?_
  obtain ⟨events, cx, htrace, hpending⟩ := h.deadline hwaiting.1
  exact hpatient hmoved events cx _ htrace hpending

variable [Target] [Waker W] [Transport T W E] [Timer C W] [Waker W'] [Transport T' W' E']
  [Timer C' W']

/-- What was delivered was queued on the other side. -/
theorem Reachable.delivered_le (h : Reachable p) :
    (delivered p.a.trace).length ≤ N' * p.b.sendable := by
  have hsound := h.trusting.sound
  have hslot := hsound.left.history.slot
  unfold Reliable.SlotHolds at hslot
  have hretained := hsound.swap.paired.retained_prefix
  have hroom := hsound.right.sound.fits.maxPayload_le
  calc (delivered p.a.trace).length
      ≤ (retained p.a.trace).flatten.length := by
        rw [← hslot, List.length_append]
        exact Nat.le_add_right _ _
    _ ≤ (queued p.b.trace).flatten.length := hretained.flatten.length_le
    _ ≤ Reliable.maxPayload N' * (queued p.b.trace).length :=
        length_flatten_le fun payload hmem => hsound.right.length_queued_le hmem
    _ ≤ N' * p.b.sendable :=
        Nat.mul_le_mul (by omega) (Nat.le_mul_of_pos_right _ (Nat.succ_pos _))

theorem Reachable.moved_left_le (h : Reachable p) (hhealth : p.a.health = .ok) :
    p.a.moved ≤ (N + 24) * p.a.sendable + (2 * N' + 22) * p.b.sendable := by
  have hsound := h.trusting.sound
  have heffort := hsound.left.effort_le
  have htimeouts := hsound.left.timeouts_eq hhealth
  have hleft := h.traffic_left
  have hright := h.swap.traffic_left
  have hdelivered := h.delivered_le
  have hreceived := h.received.1.length_le
  have hsends := hleft.sends
  have hanswers := hleft.answers.trans hright.sends
  have hbytes := hleft.bytes
  have hbytes' := hright.bytes
  have hqueued : (queued p.a.trace).length ≤ p.a.sendable :=
    Nat.le_mul_of_pos_right _ (Nat.succ_pos _)
  have hack : ackFrameLen = 20 := rfl
  simp only [Peers.swap, hack] at hbytes hbytes' hanswers
  simp only [Reliable.moved, Nat.add_mul, Nat.mul_assoc]
  omega

theorem Reachable.moved_le (h : Reachable p) (hleft : p.a.health = .ok)
    (hright : p.b.health = .ok) : moved p ≤ limit p := by
  refine (Nat.add_le_add (h.moved_left_le hleft) (h.swap.moved_left_le hright)).trans ?_
  simp only [limit, Peers.swap, Nat.add_mul, Nat.mul_assoc]
  omega

/-! ## Rounds -/

theorem Run.left (h : Run p p') : p.a.Run p'.a := by
  induction h with
  | refl => exact .refl
  | tail _ hstep ih =>
      cases hstep with
      | left hnext => exact ih.tail hnext
      | right => exact ih

theorem Run.left_trace (h : Reachable p) (hrun : Run p p') : p.a.trace <+: p'.a.trace :=
  (hrun.left.moves h.trusting.sound.left.sound).trace

theorem Run.moved_le (h : Reachable p) (hrun : Run p p') :
    p.a.moved ≤ p'.a.moved ∧ p.b.moved ≤ p'.b.moved :=
  ⟨Reliable.moved_mono (hrun.left_trace h), Reliable.moved_mono (hrun.swap.left_trace h.swap)⟩

/-- The left side is polled with a call in `calls`, over links that are not late. -/
inductive Polls (calls : Call W → Bool) (p : Peers T C W E N T' C' W' E' N') :
    Peers T C W E N T' C' W' E' N' → Prop
  | mk {call : Call W} {ret : Return E} {a : Reliable T C W E N} {events : List (Event W E)}
      (hcalls : calls call) (hcall : p.a.call call = some (ret, a))
      (htrace : a.trace = p.a.trace ++ events)
      (hprompt : Reliable.Prompt (accepted p.b.trace) p.a.trace events)
      (hfifo : received a.trace <+: accepted p.b.trace) : Polls calls p { p with a }

/-- Between `p` and `p'` both sides are polled, whatever else happens. -/
structure Round (calls : Call W → Bool) (calls' : Call W' → Bool)
    (p p' : Peers T C W E N T' C' W' E' N') : Prop where
  run : Run p p'
  left : ∃ p₁ p₂, Run p p₁ ∧ Polls calls p₁ p₂ ∧ Run p₂ p'
  right : ∃ p₁ p₂, Run p p₁ ∧ Polls calls' p₁.swap p₂.swap ∧ Run p₂ p'

theorem Polls.step {calls : Call W → Bool} (h : Polls calls p p') : Step p p' := by
  cases h with
  | mk _ hcall _ _ hfifo => exact .left (.call hcall) hfifo

theorem Round.after (hround : Round calls calls' p' p'') (h : Run p p') :
    Round calls calls' p p'' where
  run := h.trans hround.run
  left := by
    obtain ⟨p₁, p₂, hbefore, hpolls, hafter⟩ := hround.left
    exact ⟨p₁, p₂, h.trans hbefore, hpolls, hafter⟩
  right := by
    obtain ⟨p₁, p₂, hbefore, hpolls, hafter⟩ := hround.right
    exact ⟨p₁, p₂, h.trans hbefore, hpolls, hafter⟩

theorem Round.swap (h : Round calls calls' p p') : Round calls' calls p.swap p'.swap where
  run := h.run.swap
  left := by
    obtain ⟨p₁, p₂, hbefore, hpolls, hafter⟩ := h.right
    exact ⟨p₁.swap, p₂.swap, hbefore.swap, hpolls, hafter.swap⟩
  right := by
    obtain ⟨p₁, p₂, hbefore, hpolls, hafter⟩ := h.left
    exact ⟨p₁.swap, p₂.swap, hbefore.swap, hpolls, hafter.swap⟩

/-- A round in which nothing is moved leaves a connection at rest. -/
theorem Round.idle (hround : Round calls calls' p p') (h : Reachable p)
    (hdrives : ∀ call, calls call → call.drives) (hhealth : p'.a.health = .ok)
    (hmoved : moved p' = moved p) : Idle calls p p' := by
  obtain ⟨p₁, p₂, hbefore, hpolls, hafter⟩ := hround.left
  have h₁ : Reachable p₁ := h.run hbefore
  have h₂ : Reachable p₂ := h₁.step hpolls.step
  have hsound₁ := h₁.trusting.sound
  have hsound₂ := h₂.trusting.sound
  have hhealth₂ := hafter.left.health hsound₂.left.sound hhealth
  have hsame : p₂.a.moved = p₁.a.moved ∧ p'.a.moved = p₂.a.moved ∧ p'.b.moved = p₂.b.moved := by
    have := hbefore.moved_le h
    have := (Run.moved_le h₁ (.single hpolls.step))
    have := hafter.moved_le h₂
    unfold moved at hmoved
    omega
  obtain ⟨front, hfront⟩ := hbefore.left_trace h
  obtain ⟨back, hback⟩ := hafter.left_trace h₂
  cases hpolls with
  | @mk call ret a events hcalls hcall htrace hprompt hfifo =>
      obtain ⟨hresting, hreceived, hread, hdeadline⟩ :=
        hsound₁.left.rests hcall (hdrives call hcalls) hhealth₂ hsame.1 htrace hprompt
      have hrests := hresting.run hsound₂.left hafter.left hsame.2.1
      have hleft := (eq_of_effort ⟨back, hback⟩
        (Reliable.eq_of_moved ⟨back, hback⟩ hsame.2.1).1).2.1
      have hright_trace := hafter.swap.left_trace h₂.swap
      have hright := (eq_of_effort hright_trace
        (Reliable.eq_of_moved hright_trace hsame.2.2).1).1
      refine ⟨hrests.resting, ?_, fun hreads => ?_, fun hwaiting => ?_⟩
      · rw [hleft, hreceived]
        exact hright.symm
      · obtain ⟨⟨cx, buf, rfl⟩, -⟩ := Call.exists_of_reads (hreads call hcalls)
        rw [hrests.unread, hread cx buf rfl]
      · obtain ⟨cx, hpending⟩ := hdeadline (hrests.tx ▸ hwaiting)
        refine ⟨front ++ events ++ back, cx, ?_, ?_⟩
        · rw [← hback, htrace, ← hfront]
          simp
        · simp [hrests.deadline, hpending]

end Fifo

/-! ## Rounds over the link of the tests -/

namespace Fifo

/-- Whether the answer that an event records was not late. -/
def inTime (theirs : List UInt8) (before : List (Event W E)) : Event W E → Bool
  | .pollWrite _ _ _ .pending | .pollFlush _ _ .pending => false
  | .pollRead _ _ .pending _ => received before = theirs
  | _ => true

/-- Whether the link was not late in a call that added some events. -/
def promptly (theirs : List UInt8) (before : List (Event W E)) : List (Event W E) → Bool
  | [] => true
  | event :: rest => inTime theirs before event && promptly theirs (before ++ [event]) rest

theorem prompt_of_promptly {theirs : List UInt8} {before events : List (Event W E)}
    (h : promptly theirs before events) : Reliable.Prompt theirs before events := by
  induction events generalizing before with
  | nil => exact ⟨by simp, by simp, by simp⟩
  | cons event events ih =>
      obtain ⟨hevent, hrest⟩ := Bool.and_eq_true_iff.mp h
      have hprompt := ih hrest
      refine ⟨fun cx frame pending hmem => ?_, fun cx frame hmem => ?_, ?_⟩
      · rcases List.mem_cons.mp hmem with rfl | hmem
        · cases hevent
        · exact hprompt.write cx frame pending hmem
      · rcases List.mem_cons.mp hmem with rfl | hmem
        · cases hevent
        · exact hprompt.flush cx frame hmem
      · intro front cx free bytes back hsplit
        cases front with
        | nil =>
            obtain ⟨rfl, -⟩ := List.cons.inj hsplit
            simpa using of_decide_eq_true hevent
        | cons first front =>
            obtain ⟨rfl, hsplit'⟩ := List.cons.inj hsplit
            simpa using hprompt.read front cx free bytes back hsplit'

section Tests

variable [Target] {q q' : Peers.OverLinks}

/-- The left side is read from over a link that is not late, and then what was sent is carried. -/
def listen (q : Peers.OverLinks) : Exec Peers.OverLinks := do
  let q₁ ← q.act .fifo (.a (.read 1 [0]))
  let q₂ ← q₁.act .fifo .carry
  if promptly (accepted q.b.trace) q.a.trace (q₁.a.trace.drop q.a.trace.length) then some q₂
  else none

/-- Both sides are read from. -/
def around (q : Peers.OverLinks) : Exec Peers.OverLinks := do
  let q₁ ← listen q
  let q₂ ← listen q₁.swap
  some q₂.swap

theorem listen_polls {calls : Call Nat → Bool} (hcalls : calls (.read 1 [0])) (h : Reachable q)
    (hlisten : listen q = some q') : ∃ q₁, Polls calls q q₁ ∧ Run q₁ q' := by
  obtain ⟨q₁, hact, hrest⟩ := Option.bind_eq_some_iff.mp hlisten
  obtain ⟨q₂, hcarry, hrest⟩ := Option.bind_eq_some_iff.mp hrest
  obtain ⟨hprompt, hq'⟩ := Option.ite_none_right_eq_some.mp hrest
  obtain rfl := Option.some.inj hq'
  obtain ⟨⟨ret, a⟩, hcall, hrest⟩ := Option.bind_eq_some_iff.mp hact
  obtain ⟨hfifo, hq₁⟩ := Option.ite_none_right_eq_some.mp hrest
  obtain rfl := Option.some.inj hq₁
  have hnext : q.a.Next a := .call hcall
  obtain ⟨events, htrace⟩ := (hnext.moves h.trusting.sound.left.sound).trace
  rw [← htrace, List.drop_left] at hprompt
  exact ⟨_, .mk hcalls hcall htrace.symm (prompt_of_promptly hprompt) hfifo, Peers.act_run hcarry⟩

theorem around_round {calls calls' : Call Nat → Bool} (hcalls : calls (.read 1 [0]))
    (hcalls' : calls' (.read 1 [0])) (h : Reachable q) (haround : around q = some q') :
    Round calls calls' q q' := by
  obtain ⟨q₁, hleft, hrest⟩ := Option.bind_eq_some_iff.mp haround
  obtain ⟨q₂, hright, hq'⟩ := Option.bind_eq_some_iff.mp hrest
  obtain rfl := Option.some.inj hq'
  obtain ⟨r₁, hpolls, hrun⟩ := listen_polls hcalls h hleft
  have hbefore : Run q q₁ := .head hpolls.step hrun
  have h₁ : Reachable q₁ := h.run hbefore
  obtain ⟨r₂, hpolls', hrun'⟩ := listen_polls hcalls' h₁.swap hright
  have hafter : Run q₁ q₂.swap := Run.swap (.head hpolls'.step hrun')
  exact ⟨hbefore.trans hafter, ⟨q, r₁, .refl, hpolls, hrun.trans hafter⟩,
    ⟨q₁, r₂.swap, hbefore, hpolls', hrun'.swap⟩⟩

/-- Two new connections are read from again and again; in the first round the left one is written
to. -/
def rounds : Nat → Exec Peers.OverLinks
  | 0 => Peers.play .fifo []
  | 1 => do around (← Peers.play .fifo [.a (.write 1 [5])])
  | n + 2 => do around (← rounds (n + 1))

/-- A connection of the tests with nothing to do and nobody to wake, over a link with nothing to
hand over. -/
structure Calm (s : Reliable Link FakeClock Nat MockError 21) : Prop where
  transport : s.transport = .holding []
  health : s.health = .ok
  tx : s.tx = .idle
  out : s.out = .idle
  ack : s.ackPending = none
  rxLen : s.rxLen = 0
  read : s.rxStart = s.rxEnd
  write : s.waiters.slot .write = none
  flush : s.waiters.slot .flush = none

instance (s : Reliable Link FakeClock Nat MockError 21) : Decidable (Calm s) :=
  decidable_of_iff (s.transport = .holding [] ∧ s.health = .ok ∧ s.tx = .idle ∧ s.out = .idle ∧
      s.ackPending = none ∧ s.rxLen = 0 ∧ s.rxStart = s.rxEnd ∧ s.waiters.slot .write = none ∧
        s.waiters.slot .flush = none)
    ⟨fun ⟨ht, hh, htx, ho, ha, hl, hr, hw, hf⟩ => ⟨ht, hh, htx, ho, ha, hl, hr, hw, hf⟩,
      fun h => ⟨h.transport, h.health, h.tx, h.out, h.ack, h.rxLen, h.read, h.write, h.flush⟩⟩

/-- What a read of a calm connection records. -/
def listening : List (Event Nat MockError) :=
  [.step, .pollRead 1 21 .pending [], .stepped (.ok .blocked),
    .returned (.read 1 [0]) (.read .pending [0])]

variable {s : Reliable Link FakeClock Nat MockError 21}

/-- A poll of a link with nothing to hand over. -/
def unfed (s : Reliable Link FakeClock Nat MockError 21) :
    Reliable Link FakeClock Nat MockError 21 :=
  { s with rxBuf := s.rxBuf.setFrom s.rxLen (s.rxBuf.dropFrom s.rxLen) }.log
    (.pollRead 1 21 .pending [])

theorem Calm.pollInput (h : Calm s) :
    s.pollInput 1 .new = some (.ok .blocked, ⟨15⟩, unfed s) := by
  have hspend : Budget.new.spend = (true, ⟨15⟩) := rfl
  have hslice : slice s.rxBuf.toList 0 21 = some ((s.rxBuf.toList.take 21).drop 0) :=
    slice_eq (by simp) (by simp)
  have hpoll : Transport.pollRead s.transport 1 (s.rxBuf.dropFrom s.rxLen) =
      (s.transport, s.rxBuf.dropFrom s.rxLen, .pending) := by
    rw [h.transport]
    rfl
  simp [Reliable.pollInput, hspend, hslice, hpoll, unfed, h.rxLen]

theorem Calm.step (h : Calm s) : s.step 1 .new = some (.ok .blocked, ⟨15⟩, unfed s) := by
  have houtput : s.pollOutput 1 .new = some (.ok .blocked, .new, s) := by
    simp [Reliable.pollOutput, Reliable.startOutput, h.out, h.ack, h.tx]
  have htimer : (unfed s).pollTimer 1 .blocked = some (.ok .blocked, unfed s) := by
    simp [Reliable.pollTimer, unfed, h.tx]
  simp [Reliable.step, houtput, h.pollInput, htimer, Work.max]

theorem Calm.drive (h : Calm s) : ∃ s', s.drive 1 .new = some (.blocked, ⟨15⟩, s') ∧ Calm s' ∧
    s'.config = s.config ∧
      s'.trace = s.trace ++ [.step, .pollRead 1 21 .pending [], .stepped (.ok .blocked)] := by
  -- the only step leaves the read pending, so there is no other one
  have hstep : Calm (s.log .step) :=
    ⟨h.transport, h.health, h.tx, h.out, h.ack, h.rxLen, h.read, h.write, h.flush⟩
  refine ⟨(unfed (s.log .step)).log (.stepped (.ok .blocked)), ?_, ?_, rfl, ?_⟩
  · simp [Reliable.drive, h.health, Reliable.driveLoop, hstep.step]
  · exact ⟨h.transport, h.health, h.tx, h.out, h.ack, h.rxLen, h.read, h.write, h.flush⟩
  · simp [unfed]

omit [Target] in
theorem Calm.finish (h : Calm s) : ∃ waiters,
    s.finish .read 1 (.pending : Poll (Except (ConnectionError MockError) Nat)) =
      { s with waiters } ∧ Calm { s with waiters } := by
  have hslot : ∀ op, op ≠ .read → (s.waiters.register .read 1).slot op = s.waiters.slot op := by
    intro op hop
    simp only [Waiters.register, Waiters.setSlot]
    split <;> [split; skip] <;> simp [hop]
  have hwrite := (hslot .write (by simp)).trans h.write
  have hflush := (hslot .flush (by simp)).trans h.flush
  refine ⟨s.waiters.register .read 1, ?_, h.transport, h.health, h.tx, h.out, h.ack, h.rxLen,
    h.read, hwrite, hflush⟩
  simp [Reliable.finish, Reliable.notify, ops, Reliable.due, h.health, Reliable.wake, hwrite,
    hflush]

/-- A read of a calm connection finds nothing, and leaves it calm. -/
theorem Calm.call (h : Calm s) : ∃ s', s.call (.read 1 [0]) = some (.read .pending [0], s') ∧
    Calm s' ∧ s'.config = s.config ∧ s'.trace = s.trace ++ listening := by
  obtain ⟨s₁, hdrive, hcalm, hconfig, htrace⟩ := h.drive
  obtain ⟨waiters, hfinish, hcalm'⟩ := hcalm.finish
  refine ⟨{ s₁ with waiters }.log (.returned (.read 1 [0]) (.read .pending [0])), ?_, ?_, hconfig,
    ?_⟩
  · simp [Reliable.call, Reliable.dispatch, Reliable.pollRead, hdrive, hcalm.read, Reliable.failure,
      hcalm.health, hfinish]
  · exact ⟨hcalm'.transport, hcalm'.health, hcalm'.tx, hcalm'.out, hcalm'.ack, hcalm'.rxLen,
      hcalm'.read, hcalm'.write, hcalm'.flush⟩
  · simp [htrace, listening]

omit [Target] in
theorem Calm.emptied (h : Calm s) : { s with transport := Link.holding [] } = s :=
  (congrArg (fun transport => { s with transport }) h.transport).symm

/-- Two calm connections that have received everything. -/
structure Still (q : Peers.OverLinks) : Prop where
  left : Calm q.a
  right : Calm q.b
  toLeft : received q.a.trace = accepted q.b.trace
  toRight : received q.b.trace = accepted q.a.trace

instance (q : Peers.OverLinks) : Decidable (Still q) :=
  decidable_of_iff (Calm q.a ∧ Calm q.b ∧ received q.a.trace = accepted q.b.trace ∧
      received q.b.trace = accepted q.a.trace)
    ⟨fun ⟨ha, hb, hl, hr⟩ => ⟨ha, hb, hl, hr⟩, fun h => ⟨h.left, h.right, h.toLeft, h.toRight⟩⟩

omit [Target] in
theorem Still.swap (h : Still q) : Still q.swap := ⟨h.right, h.left, h.toRight, h.toLeft⟩

theorem Still.listen (h : Still q) : ∃ a, listen q = some { q with a } ∧ Still { q with a } ∧
    a.config = q.a.config ∧ a.trace = q.a.trace ++ listening := by
  obtain ⟨a, hcall, hcalm, hconfig, htrace⟩ := h.left.call
  have hreceived : received a.trace = accepted q.b.trace := by
    rw [htrace, received_append, h.toLeft]
    exact List.append_nil _
  have haccepted : accepted a.trace = accepted q.a.trace := by
    rw [htrace, accepted_append]
    exact List.append_nil _
  have hact : q.act .fifo (.a (.read 1 [0])) = some { q with a } := by
    simp [Peers.act, hcall, Links.fifo, hreceived]
  -- both links are empty, and stay so
  have ha : { a with transport := { a.transport with
      incoming := a.transport.incoming ++ q.b.transport.outgoing, outgoing := [] } } = a := by
    rw [hcalm.transport, h.right.transport]
    exact hcalm.emptied
  have hb : { q.b with transport := { q.b.transport with
      incoming := q.b.transport.incoming ++ a.transport.outgoing, outgoing := [] } } = q.b := by
    rw [hcalm.transport, h.right.transport]
    exact h.right.emptied
  have hcarry : Peers.act .fifo { q with a } .carry = some { q with a } := by
    simp [Peers.act, ha, hb, Links.fifo, hreceived, haccepted, h.toRight]
  have hprompt : promptly (accepted q.b.trace) q.a.trace (a.trace.drop q.a.trace.length) := by
    have hnothing : received [Event.step (W := Nat) (E := MockError)] = [] := rfl
    rw [htrace, List.drop_left]
    simp [promptly, inTime, listening, h.toLeft, hnothing]
  refine ⟨a, ?_, ⟨hcalm, h.right, hreceived, h.toRight.trans haccepted.symm⟩, hconfig, htrace⟩
  simp [Fifo.listen, hact, hcarry, hprompt]

theorem Still.around (h : Still q) : ∃ q', around q = some q' ∧ Still q' ∧
    (q'.a.config = q.a.config ∧ q'.a.trace = q.a.trace ++ listening) ∧
      q'.b.config = q.b.config ∧ q'.b.trace = q.b.trace ++ listening := by
  obtain ⟨a, hleft, hstill, hconfig⟩ := h.listen
  obtain ⟨b, hright, hstill', hconfig'⟩ := hstill.swap.listen
  have haround : Fifo.around q = some ⟨a, b⟩ :=
    Option.bind_eq_some_iff.mpr ⟨_, hleft, Option.bind_eq_some_iff.mpr ⟨_, hright, rfl⟩⟩
  exact ⟨⟨a, b⟩, haround, hstill'.swap, hconfig, hconfig'⟩

/-- A packet was written on the left and acknowledged, and nothing else is to be done. -/
structure Served (q : Peers.OverLinks) : Prop where
  still : Still q
  left : q.a.config = testConfig ∧ queued q.a.trace = [[5]]
  right : q.b.config = testConfig ∧ queued q.b.trace = []

omit [Target] in
theorem Served.limit_eq (h : Served q) : limit q = 327 := by
  simp [limit, Reliable.sendable, h.left, h.right, testConfig]

end Tests

theorem rounds_reachable {i : Nat} {q : Peers.OverLinks} (h : letI := target64; rounds i = some q) :
    letI := target64; Reachable q := by
  let := target64
  have hround : ∀ {q q' : Peers.OverLinks}, Reachable q → around q = some q' → Reachable q' := by
    intro q q' hreachable haround
    have hround : Round Call.reads Call.reads q q' := around_round rfl rfl hreachable haround
    exact hreachable.run hround.run
  induction i using rounds.induct generalizing q with
  | case1 => exact Peers.play_reachable h
  | case2 =>
      rw [rounds] at h
      obtain ⟨q₀, hwritten, haround⟩ := Option.bind_eq_some_iff.mp h
      exact hround (Peers.play_reachable hwritten) haround
  | case3 n ih =>
      obtain ⟨q₀, hbefore, haround⟩ := Option.bind_eq_some_iff.mp h
      exact hround (ih hbefore) haround

theorem rounds_round {calls calls' : Call Nat → Bool} (hcalls : calls (.read 1 [0]))
    (hcalls' : calls' (.read 1 [0])) {i : Nat} {q q' : Peers.OverLinks}
    (h : letI := target64; rounds i = some q) (h' : letI := target64; rounds (i + 1) = some q') :
    letI := target64; Round calls calls' q q' := by
  let := target64
  cases i with
  | zero =>
      rw [rounds] at h'
      obtain ⟨q₀, hwritten, haround⟩ := Option.bind_eq_some_iff.mp h'
      obtain rfl := Option.some.inj h
      exact (around_round hcalls hcalls' (Peers.play_reachable hwritten) haround).after
        (Peers.acts_run hwritten)
  | succ i =>
      obtain ⟨q₀, hbefore, haround⟩ := Option.bind_eq_some_iff.mp h'
      obtain rfl := Option.some.inj (hbefore.symm.trans h)
      exact around_round hcalls hcalls' (rounds_reachable h) haround

/-- From the second round on nothing is left to be done. -/
theorem rounds_served (n : Nat) : letI := target64; ∃ q, rounds (n + 2) = some q ∧ Served q := by
  let := target64
  induction n with
  | zero =>
      -- the acknowledgement arrived in the second round
      have hstate : (rounds 2).map (fun q => (decide (Still q), (q.a.config, queued q.a.trace),
          (q.b.config, queued q.b.trace))) =
            some (true, (testConfig, [[5]]), (testConfig, [])) := by
        decide +kernel
      obtain ⟨q, hq, hstate⟩ := Option.map_eq_some_iff.mp hstate
      simp only [Prod.mk.injEq] at hstate
      exact ⟨q, hq, of_decide_eq_true hstate.1, hstate.2.1, hstate.2.2⟩
  | succ n ih =>
      obtain ⟨q, hq, hserved⟩ := ih
      obtain ⟨q', haround, hstill, ⟨hconfig, htrace⟩, hconfig', htrace'⟩ := hserved.still.around
      have hnothing : queued listening = [] := rfl
      refine ⟨q', Option.bind_eq_some_iff.mpr ⟨q, hq, haround⟩, hstill, ?_, ?_⟩
      · rw [hconfig, htrace, queued_append, hnothing, List.append_nil]
        exact hserved.left
      · rw [hconfig', htrace', queued_append, hnothing, List.append_nil]
        exact hserved.right

theorem rounds_first : letI := target64; ∃ q q₁ q₂, rounds 0 = some q ∧ rounds 1 = some q₁ ∧
    rounds 2 = some q₂ ∧ moved q < moved q₁ ∧ moved q₁ < moved q₂ ∧ queued q₁.a.trace = [[5]] ∧
      queued q₁.b.trace = [] := by
  let := target64
  have hstate : ((rounds 0).bind fun q => (rounds 1).bind fun q₁ => (rounds 2).map fun q₂ =>
      (decide (moved q < moved q₁), decide (moved q₁ < moved q₂), queued q₁.a.trace,
        queued q₁.b.trace)) = some (true, true, [[5]], []) := by
    decide +kernel
  simp only [Option.bind_eq_some_iff, Option.map_eq_some_iff, Prod.mk.injEq, decide_eq_true_eq]
    at hstate
  obtain ⟨q, hq, q₁, hq₁, q₂, hq₂, hstate⟩ := hstate
  exact ⟨q, q₁, q₂, hq, hq₁, hq₂, hstate⟩

/-- Nobody waits for a deadline in a round of these in which nothing is moved. -/
theorem rounds_patient {i : Nat} {q q' : Peers.OverLinks}
    (h : letI := target64; rounds i = some q) (h' : letI := target64; rounds (i + 1) = some q') :
    letI := target64; Patient q q' ∧ Patient q.swap q'.swap := by
  let := target64
  have hmoves : moved q < moved q' → Patient q q' ∧ Patient q.swap q'.swap := by
    intro hlt
    refine ⟨fun hsame => absurd hsame hlt.ne', fun hsame => absurd hsame ?_⟩
    simp only [moved, Peers.swap] at hlt ⊢
    omega
  -- the first two rounds move something, and in the others no deadline is asked for
  obtain ⟨q₀, q₁, q₂, h₀, h₁, h₂, hfirst, hsecond, -⟩ := rounds_first
  obtain _ | _ | n := i
  · obtain rfl := Option.some.inj (h₀.symm.trans h)
    obtain rfl := Option.some.inj (h₁.symm.trans h')
    exact hmoves hfirst
  · obtain rfl := Option.some.inj (h₁.symm.trans h)
    obtain rfl := Option.some.inj (h₂.symm.trans h')
    exact hmoves hsecond
  · obtain ⟨q₃, h₃, hserved⟩ := rounds_served n
    obtain rfl := Option.some.inj (h₃.symm.trans h)
    obtain ⟨q₄, haround, -, ⟨-, htrace⟩, -, htrace'⟩ := hserved.still.around
    obtain rfl := Option.some.inj ((Option.bind_eq_some_iff.mpr ⟨q₃, h₃, haround⟩).symm.trans h')
    have hnever : ∀ cx deadline, Event.pollDeadline cx deadline .pending ∉ listening := by
      simp [listening]
    refine ⟨fun _ events cx deadline hevents => ?_, fun _ events cx deadline hevents => ?_⟩
    · exact List.append_cancel_left (htrace.symm.trans hevents) ▸ hnever cx deadline
    · exact List.append_cancel_left (htrace'.symm.trans hevents) ▸ hnever cx deadline

theorem rounds_isSome (i : Nat) : letI := target64; ∃ q, rounds i = some q := by
  let := target64
  obtain ⟨q₀, q₁, -, h₀, h₁, -⟩ := rounds_first
  obtain _ | _ | n := i
  · exact ⟨q₀, h₀⟩
  · exact ⟨q₁, h₁⟩
  · exact (rounds_served n).imp fun _ => And.left

theorem rounds_queued {i : Nat} {q : Peers.OverLinks}
    (h : letI := target64; rounds (i + 1) = some q) :
    queued q.a.trace = [[5]] ∧ queued q.b.trace = [] := by
  let := target64
  obtain _ | n := i
  · obtain ⟨-, q₁, -, -, h₁, -, -, -, hqueued⟩ := rounds_first
    obtain rfl := Option.some.inj (h₁.symm.trans h)
    exact hqueued
  · obtain ⟨q₃, h₃, hserved⟩ := rounds_served n
    obtain rfl := Option.some.inj (h₃.symm.trans h)
    exact ⟨hserved.left.2, hserved.right.2⟩

end Fifo

/-! ## Runs of rounds -/

namespace Fifo

variable [Target] [Waker W] [Transport T W E] [Timer C W] [Waker W'] [Transport T' W' E']
  [Timer C' W'] {calls : Call W → Bool} {calls' : Call W' → Bool}

/-- Some round of a long run moves nothing, unless a side fails. -/
theorem Reachable.exists_idle {p : Nat → Peers T C W E N T' C' W' E' N'} {n : Nat}
    (h : Reachable (p 0)) (hrounds : ∀ i < n, Round calls calls' (p i) (p (i + 1)))
    (hdrives : ∀ call, calls call → call.drives) (hdrives' : ∀ call, calls' call → call.drives)
    (hlong : limit (p n) < n) (hleft : (p n).a.health = .ok) (hright : (p n).b.health = .ok) :
    ∃ i < n, Reachable (p (i + 1)) ∧ moved (p (i + 1)) = moved (p i) ∧
      Idle calls (p i) (p (i + 1)) ∧ Idle calls' (p i).swap (p (i + 1)).swap := by
  have hruns : ∀ i < n, Run (p i) (p (i + 1)) := fun i hi => (hrounds i hi).run
  have hreachable : ∀ i ≤ n, Reachable (p i) ∧ Run (p i) (p n) := fun i hi =>
    ⟨h.run (run_of_le hruns (Nat.zero_le i) hi), run_of_le hruns hi le_rfl⟩
  -- what is moved is bounded, so in one of the rounds nothing is
  obtain ⟨i, hi, hmoved⟩ := exists_still (f := fun i => moved (p i)) (n := n)
    (fun i hi => by
      have := (hrounds i hi).run.moved_le (hreachable i hi.le).1
      exact Nat.add_le_add this.1 this.2)
    ((hreachable n le_rfl).1.moved_le hleft hright |>.trans_lt hlong)
  have hnow := hreachable i hi.le
  have hnext := hreachable (i + 1) hi
  have hsound := hnext.1.trusting.sound
  refine ⟨i, hi, hnext.1, hmoved, ?_, ?_⟩
  · exact (hrounds i hi).idle hnow.1 hdrives
      (hnext.2.left.health hsound.left.sound hleft) hmoved
  · refine (hrounds i hi).swap.idle hnow.1.swap hdrives'
      (hnext.2.swap.left.health hsound.right.sound hright) ?_
    simp only [moved, Peers.swap] at hmoved ⊢
    omega

/-- Two connections that are polled again and again come to rest, unless one of them fails. -/
theorem Reachable.completes {p : Nat → Peers T C W E N T' C' W' E' N'} {n : Nat}
    (h : Reachable (p 0)) (hrounds : ∀ i < n, Round Call.drives Call.drives (p i) (p (i + 1)))
    (hlong : limit (p n) < n) :
    (p n).a.health ≠ .ok ∨ (p n).b.health ≠ .ok ∨
      ∃ i < n, Quiet (p (i + 1)) ∧ Waits (p i) (p (i + 1)) ∧
        Waits (p i).swap (p (i + 1)).swap := by
  refine Classical.or_iff_not_imp_left.mpr fun hleft => ?_
  refine Classical.or_iff_not_imp_left.mpr fun hright => ?_
  obtain ⟨i, hi, -, -, hidle, hidle'⟩ := h.exists_idle hrounds (fun _ => id) (fun _ => id) hlong
    (Classical.not_not.mp hleft) (Classical.not_not.mp hright)
  exact ⟨i, hi, hidle.quiet hidle', hidle.waits, hidle'.waits⟩

omit [Target] in
/-- The packet that is written in the first round is acknowledged, and the two come to rest. -/
theorem completes_packet : letI := target64
    ∃ p : Nat → Peers.OverLinks, (∀ i, rounds i = some (p i)) ∧
      written (p 328).a.trace = [[5]] ∧ (p 328).a.tx = .idle ∧
        ∃ i < 328, Quiet (p (i + 1)) ∧ Waits (p i) (p (i + 1)) ∧
          Waits (p i).swap (p (i + 1)).swap := by
  let := target64
  choose p hp using rounds_isSome
  obtain ⟨q, hq, hserved⟩ := rounds_served 326
  obtain rfl := Option.some.inj (hq.symm.trans (hp 328))
  refine ⟨p, hp, ?_, hserved.still.left.tx, ?_⟩
  · rw [(rounds_reachable (hp 328)).trusting.sound.left.accounts.written_eq]
    exact hserved.left.2
  · obtain hfailed | hfailed | hrest := Reachable.completes (rounds_reachable (hp 0))
      (fun i _ => rounds_round rfl rfl (hp i) (hp (i + 1))) (hserved.limit_eq.trans_lt (by decide))
    · exact absurd hserved.still.left.health hfailed
    · exact absurd hserved.still.right.health hfailed
    · exact hrest

/-- Two connections that are read again and again deliver everything that was written, in both
directions, unless one of them fails. -/
theorem Reachable.delivers {p : Nat → Peers T C W E N T' C' W' E' N'} {n : Nat}
    (h : Reachable (p 0)) (hrounds : ∀ i < n, Round Call.reads Call.reads (p i) (p (i + 1)))
    (hpatient : ∀ i < n, Patient (p i) (p (i + 1)) ∧ Patient (p i).swap (p (i + 1)).swap)
    (hlong : limit (p n) < n) :
    (p n).a.health ≠ .ok ∨ (p n).b.health ≠ .ok ∨
      ∃ i < n, readOut (p (i + 1)).b.trace = (written (p (i + 1)).a.trace).flatten ∧
        readOut (p (i + 1)).a.trace = (written (p (i + 1)).b.trace).flatten := by
  refine Classical.or_iff_not_imp_left.mpr fun hleft => ?_
  refine Classical.or_iff_not_imp_left.mpr fun hright => ?_
  obtain ⟨i, hi, hnext, hmoved, hidle, hidle'⟩ := h.exists_idle hrounds
    (fun _ hreads => (Call.exists_of_reads hreads).2)
    (fun _ hreads => (Call.exists_of_reads hreads).2) hlong
    (Classical.not_not.mp hleft) (Classical.not_not.mp hright)
  have hmoved' : moved (p (i + 1)).swap = moved (p i).swap := by
    simp only [moved, Peers.swap] at hmoved ⊢
    omega
  have hsound := hnext.trusting.sound
  have hempty : (p (i + 1)).a.unread = [] := hidle.unread fun _ => id
  have hempty' : (p (i + 1)).b.unread = [] := hidle'.unread fun _ => id
  refine ⟨i, hi, ?_, ?_⟩
  · have harrived := hsound.arrives.complete (hidle.tx (hpatient i hi).1 hmoved)
    rwa [hempty', List.append_nil] at harrived
  · have harrived : readOut (p (i + 1)).a.trace ++ (p (i + 1)).a.unread =
        (written (p (i + 1)).b.trace).flatten :=
      hsound.swap.arrives.complete (hidle'.tx (hpatient i hi).2 hmoved')
    rwa [hempty, List.append_nil] at harrived

omit [Target] in
/-- The byte that is written in the first round is read, and nothing else. -/
theorem delivers_packet : letI := target64
    ∃ p : Nat → Peers.OverLinks, (∀ i, rounds i = some (p i)) ∧
      ∃ i < 328, written (p (i + 1)).a.trace = [[5]] ∧ readOut (p (i + 1)).b.trace = [5] ∧
        readOut (p (i + 1)).a.trace = [] := by
  let := target64
  choose p hp using rounds_isSome
  obtain ⟨q, hq, hserved⟩ := rounds_served 326
  obtain rfl := Option.some.inj (hq.symm.trans (hp 328))
  obtain hfailed | hfailed | ⟨i, hi, hleft, hright⟩ := Reachable.delivers (rounds_reachable (hp 0))
    (fun i _ => rounds_round rfl rfl (hp i) (hp (i + 1)))
    (fun i _ => rounds_patient (hp i) (hp (i + 1))) (hserved.limit_eq.trans_lt (by decide))
  · exact absurd hserved.still.left.health hfailed
  · exact absurd hserved.still.right.health hfailed
  · have hsound := (rounds_reachable (hp (i + 1))).trusting.sound
    obtain ⟨hqueued, hqueued'⟩ := rounds_queued (hp (i + 1))
    have hwritten := hsound.left.accounts.written_eq.trans hqueued
    have hwritten' := hsound.right.accounts.written_eq.trans hqueued'
    rw [hwritten] at hleft
    rw [hwritten'] at hright
    exact ⟨p, hp, i, hi, hwritten, hleft, hright⟩

end Fifo

end CobsIoAsync.Connection
