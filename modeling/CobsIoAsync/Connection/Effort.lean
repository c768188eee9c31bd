import CobsIoAsync.Connection.Acknowledge
import CobsIoAsync.Connection.Retransmit
import CobsIoAsync.Connection.Sequence
import CobsIoAsync.Connection.Waiting
import Mathlib.Algebra.BigOperators.Group.Finset.Basic
import Mathlib.Algebra.Order.BigOperators.Group.Finset

/-!
# Connection.Effort — how long a connection goes on

A step of `drive` that is not the last one moves something: it has bytes accepted or received, it
starts or flushes a frame, or a deadline passes.  So a call that moves nothing has polled everything
that the connection waits for.  And all that is ever moved is bounded by the packets that were
accepted and the bytes that were received.
-/

namespace CobsIoAsync.Connection

open Reasoning Protocol

/-! ## Effort -/

section Lists

variable {W E : Type}

/-- Whether an event is a deadline that passed. -/
def Event.expires : Event W E → Bool
  | .pollDeadline _ _ (.ready _) => true
  | _ => false

/-- The number of deadlines that passed. -/
def expirations (trace : List (Event W E)) : Nat := trace.countP Event.expires

@[simp] theorem expirations_append (t u : List (Event W E)) :
    expirations (t ++ u) = expirations t + expirations u := List.countP_append

/-- Everything that was moved: bytes that were accepted, received and delivered, frames that were
started and flushed, and deadlines that passed. -/
def effort (trace : List (Event W E)) : Nat :=
  (accepted trace).length + (received trace).length + (delivered trace).length +
    (startedFrames trace).length + Line.flushes (lineEvents trace) + expirations trace

theorem effort_append (t u : List (Event W E)) : effort (t ++ u) = effort t + effort u := by
  simp only [effort, accepted_append, received_append, delivered_append, startedFrames_append,
    lineEvents_append, Line.flushes_append, expirations_append, List.length_append]
  omega

theorem effort_mono {t u : List (Event W E)} (h : t <+: u) : effort t ≤ effort u := by
  obtain ⟨events, rfl⟩ := h
  rw [effort_append]
  exact Nat.le_add_right _ _

/-- An event that moves something is some effort. -/
theorem effort_lt {t u : List (Event W E)} {event : Event W E} (h : t ++ [event] <+: u)
    (hevent : 0 < effort [event]) : effort t < effort u := by
  have hmono := effort_mono h
  rw [effort_append] at hmono
  omega

/-- Where nothing was moved, nothing was accepted or received either. -/
theorem eq_of_effort {t u : List (Event W E)} (h : t <+: u) (heffort : effort u = effort t) :
    accepted u = accepted t ∧ received u = received t ∧ delivered u = delivered t := by
  obtain ⟨events, rfl⟩ := h
  rw [effort_append, Nat.add_eq_left] at heffort
  simp only [effort, Nat.add_eq_zero_iff, List.length_eq_zero_iff] at heffort
  obtain ⟨⟨⟨⟨⟨haccepted, hreceived⟩, hdelivered⟩, -⟩, -⟩, -⟩ := heffort
  simp [haccepted, hreceived, hdelivered]

def Event.transmittedSeq? : Event W E → Option UInt32
  | .started .data seq _ => some seq
  | _ => none

/-- The number of transmissions that were started. -/
def transmitted (trace : List (Event W E)) : Nat := trace.countP Event.transmits

def Event.timesOut : Event W E → Bool
  | .timedOut => true
  | _ => false

/-- The number of packets that were given up. -/
def timeouts (trace : List (Event W E)) : Nat := trace.countP Event.timesOut

@[simp] theorem transmitted_append (t u : List (Event W E)) :
    transmitted (t ++ u) = transmitted t + transmitted u := List.countP_append

@[simp] theorem timeouts_append (t u : List (Event W E)) :
    timeouts (t ++ u) = timeouts t + timeouts u := List.countP_append

end Lists

namespace Reliable

variable {T C W E : Type} {N : Nat} {s s' : Reliable T C W E N}
variable [Target]

theorem Turns.effort_le (h : Turns s s') : effort s.trace ≤ effort s'.trace := by
  obtain ⟨events, htrace, -⟩ := h.inner.adds
  exact effort_mono ⟨events, htrace.symm⟩

omit [Target] in
/-- A frame is in progress, or starting one is some effort. -/
theorem Start.works (h : Start s s') : s' = s ∨ effort s.trace < effort s'.trace := by
  cases h with
  | going => exact .inl rfl
  | ack => exact .inr (effort_lt List.prefix_rfl (by simp [effort, Event.started?]))
  | data => exact .inr (effort_lt List.prefix_rfl (by simp [effort, Event.started?]))

/-- Output that makes progress is some effort. -/
theorem Output.works (hinv : Inv s) {cx : W} {budget budget' : Budget}
    (h : Output s cx budget (.ok .progress) budget' s') : effort s.trace < effort s'.trace := by
  cases h with
  | @write s₁ s₂ frame offset left work hstart hleft hout hwrite =>
      refine hstart.turns.effort_le.trans_lt ?_
      have hinv₁ := hinv.turns hstart.turns
      have hoffset := hinv₁.offset_lt hout
      have hlength := length_frameBytes hinv₁ frame
      cases hwrite with
      | written transport written hwritten =>
          refine effort_lt List.prefix_rfl ?_
          simp only [effort, accepted_singleton, Event.acceptedBytes, List.length_take,
            List.length_drop]
          omega
  | flush hstart _ _ hflush =>
      refine hstart.turns.effort_le.trans_lt ?_
      cases hflush with
      | sent => exact effort_lt (List.prefix_append ..) (by simp [effort, Event.line?, Line.flushes])
      | flushed => exact effort_lt List.prefix_rfl (by simp [effort, Event.line?, Line.flushes])

/-- Input that makes progress is some effort. -/
theorem Input.works (hsettled : Settled s) {cx : W} {budget budget' : Budget}
    (h : Input s cx budget (.ok .progress) budget' s') : effort s.trace < effort s'.trace := by
  have hroom := hsettled.rxLen_lt
  cases h with
  | read transport rxBuf count bytes _ hcount hbytes _ hprocess =>
      obtain ⟨events, htrace, -⟩ := hprocess.adds
      rw [log_trace] at htrace
      refine effort_lt ⟨events, htrace.symm⟩ ?_
      simp only [effort, received_singleton, Event.receivedBytes]
      omega

omit [Target] in
/-- The timer makes progress when a deadline passes, or when the packet is queued again. -/
theorem Timed.works {cx : W} {input : Work} (h : Timed s cx input (.ok .progress) s') :
    effort s.trace < effort s'.trace ∨
      s.tx = .waiting ∧ s'.tx = .queued ∧ s'.trace = s.trace := by
  cases h with
  | expired =>
      exact .inl (effort_lt List.prefix_rfl (by simp [effort, expirations, Event.expires]))
  | requeue left htx => exact .inr ⟨htx, rfl, rfl⟩

/-! ## Calls that move nothing -/

omit [Target] in
/-- Output that is blocked and starts no frame leaves the packet in flight alone. -/
theorem Output.idle {cx : W} {budget budget' : Budget}
    (h : Output s cx budget (.ok .blocked) budget' s') (heffort : effort s'.trace = effort s.trace) :
    s'.tx = s.tx := by
  cases h with
  | nothing => rfl
  | write hstart _ _ hwrite =>
      cases hwrite with
      | pending =>
          obtain rfl | hmore := hstart.works
          · rfl
          · rw [log_trace, effort_append] at heffort
            dsimp only at heffort
            omega
  | flush hstart _ _ hflush =>
      cases hflush with
      | pending =>
          obtain rfl | hmore := hstart.works
          · rfl
          · rw [log_trace, effort_append] at heffort
            dsimp only at heffort
            omega

theorem Input.blocked_tx {cx : W} {budget budget' : Budget}
    (h : Input s cx budget (.ok .blocked) budget' s') : s'.tx = s.tx := by
  cases h
  rfl

/-- A step that makes progress is some effort, or the packet in flight is queued again. -/
theorem Step.works (hinv : Inv s) (hsettled : Settled s) {cx : W} {budget budget' : Budget}
    (h : Step s cx budget (.ok .progress) budget' s') :
    effort s.trace < effort s'.trace ∨ s.tx = .waiting ∧ s'.tx = .queued := by
  generalize hwork : (.ok .progress : Outcome E) = work at h
  cases h with
  | @done output input timer budget₁ _ s₁ s₂ _ houtput hinput htimer =>
      have hinv₁ := hinv.turns houtput.turns
      have houtput_le := houtput.turns.effort_le
      have hinput_le := (hinput.turns hinv₁).effort_le
      have htimer_le := htimer.turns.effort_le
      by_contra hidle
      obtain ⟨heffort, htx⟩ := not_or.mp hidle
      have houtput_ne : output ≠ .progress := by
        rintro rfl
        have := houtput.works hinv
        omega
      have hinput_ne : input ≠ .progress := by
        rintro rfl
        have := hinput.works (hsettled.of_sameInput houtput.sameInput)
        omega
      obtain ⟨rfl, rfl, rfl⟩ : output = .blocked ∧ input = .blocked ∧ timer = .progress := by
        cases output <;> cases input <;> cases timer <;> simp_all [Work.max]
      obtain hmore | ⟨hwaiting, hqueued, -⟩ := htimer.works
      · omega
      · refine htx ⟨?_, hqueued⟩
        rw [← houtput.idle (by omega), ← hinput.blocked_tx, hwaiting]
  | _ => cases hwork

/-- A step spends at most two units of the budget. -/
theorem Step.frugal {cx : W} {budget budget' : Budget} {work : Outcome E}
    (h : Step s cx budget work budget' s') : budget.left ≤ budget'.left + 2 := by
  have houtput : ∀ {budget₁ : Budget} {work : Outcome E} {s₁ : Reliable T C W E N},
      Output s cx budget work budget₁ s₁ → budget.left ≤ budget₁.left + 1 := by
    intro budget₁ work s₁ h
    cases h <;> simp_all
  have hinput : ∀ {budget₁ budget₂ : Budget} {work : Outcome E} {s₁ s₂ : Reliable T C W E N},
      Input s₁ cx budget₁ work budget₂ s₂ → budget₁.left ≤ budget₂.left + 1 := by
    intro budget₁ budget₂ work s₁ s₂ h
    cases h <;> simp_all
  cases h with
  | output h₁ => exact (houtput h₁).trans (Nat.le_succ _)
  | input h₁ h₂ => exact (houtput h₁).trans (Nat.succ_le_succ (hinput h₂))
  | timer h₁ h₂ => exact (houtput h₁).trans (Nat.succ_le_succ (hinput h₂))
  | done h₁ h₂ => exact (houtput h₁).trans (Nat.succ_le_succ (hinput h₂))

theorem DriveLoop.effort_le (hinv : Inv s) {cx : W} {budget budget' : Budget} {work : Work}
    (h : DriveLoop cx s budget work budget' s') : effort s.trace ≤ effort s'.trace := by
  obtain ⟨events, htrace, -⟩ := h.adds hinv
  exact effort_mono ⟨events, htrace.symm⟩

/-- A loop of `drive` that moves nothing polls everything in its last step, which is the first one
or the second one. -/
theorem DriveLoop.idle (hinv : Inv s) (hsettled : Settled s) {cx : W} {budget budget' : Budget}
    {work : Work} (h : DriveLoop cx s budget work budget' s') (hhealth : s'.health = .ok)
    (hbudget : if s.tx = .waiting then 4 < budget.left else 2 < budget.left)
    (heffort : effort s'.trace = effort s.trace) :
    ∃ before last after, s'.trace = s.trace ++ (before ++ last ++ after) ∧ Armed cx last s' := by
  induction h with
  | @progress s s₁ s₂ budget budget₁ budget₂ work hstep hloop ih =>
      have hstart : Inv (s.log .step) := hinv.turn (.note s _ rfl)
      have hinv₁ : Inv s₁ := hstart.turns (hstep.turns hstart)
      have hsettled₁ : Settled s₁ := hsettled.receives
        (((Receives.refl s).log .step rfl rfl).trans hstep.receives)
      have hnote : Inv (s₁.log (.stepped (.ok .progress))) := hinv₁.turn (.note s₁ _ rfl)
      have hsame : effort s₂.trace = effort (s₁.log (.stepped (.ok .progress))).trace ∧
          effort s₁.trace = effort (s.log .step).trace := by
        have hloop_le := hloop.effort_le hnote
        have hstep_le := (hstep.turns hstart).effort_le
        have hlog : effort (s.log .step).trace = effort s.trace + effort [Event.step] :=
          effort_append _ _
        have hlog₁ : effort (s₁.log (.stepped (.ok .progress))).trace =
            effort s₁.trace + effort [Event.stepped (.ok .progress)] := effort_append _ _
        omega
      obtain hmore | ⟨hwaiting, hqueued⟩ := hstep.works hstart
        (hsettled.of_sameInput ((SameInput.refl s).log .step rfl rfl))
      · omega
      -- The packet was queued again, which no second step can do.
      have hfrugal := hstep.frugal
      rw [log_tx] at hwaiting
      rw [if_pos hwaiting] at hbudget
      obtain ⟨before, last, after, htrace, harmed⟩ := ih hnote
        (hsettled₁.of_sameInput ((SameInput.refl s₁).log _ rfl rfl)) hhealth
        (by rw [log_tx, hqueued, if_neg (by simp)]; omega) hsame.1
      obtain ⟨events, hevents, -⟩ := (hstep.turns hstart).inner.adds
      refine ⟨.step :: events ++ .stepped (.ok .progress) :: before, last, after, ?_, harmed⟩
      rw [htrace, log_trace, hevents, log_trace]
      simp
  | blocked hstep =>
      obtain ⟨last, htrace, -, harmed⟩ := hstep.armed
      exact ⟨[.step], last, [.stepped (.ok .blocked)], by simp [htrace], harmed.same _ _⟩
  | yield hstep =>
      have hspent := hstep.exhausted
      have hfrugal := hstep.frugal
      split at hbudget <;> omega
  | error => exact absurd hhealth (health_fail _ _)

/-- Between `s` and `s'` everything the connection waits for was polled, with the state that was
left. -/
def Asked (s s' : Reliable T C W E N) : Prop :=
  ∃ cx before last after, s'.trace = s.trace ++ (before ++ last ++ after) ∧ Armed cx last s'

omit [Target] in
theorem Asked.woken {s'' : Reliable T C W E N} (h : Asked s s') (hwoken : Woken s' s'') :
    Asked s s'' := by
  obtain ⟨cx, before, last, after, htrace, harmed⟩ := h
  obtain ⟨waiters, wakes, rfl, -⟩ := hwoken
  exact ⟨cx, before, last, after ++ wakes, by simp [htrace], harmed.same _ _⟩

theorem Drive.effort_le (hinv : Inv s) {cx : W} {budget budget' : Budget} {work : Work}
    (h : Drive s cx budget work budget' s') : effort s.trace ≤ effort s'.trace := by
  obtain ⟨events, htrace, -⟩ := h.adds hinv
  exact effort_mono ⟨events, htrace.symm⟩

theorem Drive.idle (hinv : Inv s) (hsettled : Settled s) {cx : W} {budget : Budget} {work : Work}
    (h : Drive s cx .new work budget s') (hhealth : s'.health = .ok)
    (heffort : effort s'.trace = effort s.trace) : Asked s s' := by
  cases h with
  | stopped hstopped => exact absurd hhealth hstopped
  | loop _ hloop =>
      refine ⟨cx, hloop.idle hinv hsettled hhealth ?_ heffort⟩
      split <;> decide

omit [Target] in
theorem Woken.effort_le (h : Woken s s') : effort s.trace ≤ effort s'.trace := by
  obtain ⟨waiters, wakes, rfl, -⟩ := h
  exact effort_mono (List.prefix_append ..)

/-- A packet that is accepted is queued. -/
theorem QueuePacket.queues (hfits : Fits N) (hinv : Inv s) {cx : W} {buf : List UInt8} {len : Nat}
    (hne : buf ≠ []) (h : QueuePacket s cx buf (.ready (.ok len)) s') :
    ∃ payload, queued s'.trace = queued s.trace ++ [payload] := by
  cases h with
  | @accepted work budget s₁ s₂ _ payload _ _ _ hdrive _ hready hnext hpayload hlen hframe hs₂
      hsecond =>
      obtain ⟨-, hinv₂⟩ := accepted_moves hfits (hinv.moves hfits (hdrive.moves hinv)) hne hready
        hnext hpayload hlen hframe hs₂
      refine ⟨payload, ?_⟩
      have hsame : queued s'.trace = queued s₂.trace := by
        obtain ⟨-, rfl⟩ | ⟨-, work', budget', hdrive'⟩ := hsecond
        · rfl
        · exact (hdrive'.neutral hinv₂).accounts.1
      rw [hsame, hs₂, log_trace, queued_append, (hdrive.neutral hinv).accounts.1]
      rfl

/-- A call that drives a connection and moves nothing has polled everything, and a read has found
nothing to return. -/
theorem Dispatch.idle [Waker W] (hfits : Fits N) (hinv : Inv s) (hsettled : Settled s)
    {call : Call W}
    {ret : Return E} (h : Dispatch s call ret s') (hdrives : call.drives)
    (hhealth : s'.health = .ok) (hqueued : queued s'.trace = queued s.trace)
    (heffort : effort s'.trace = effort s.trace) :
    Asked s s' ∧ ∀ cx buf, call = .read cx buf → s'.unread = [] := by
  -- The end of a call changes nothing but the waiters.
  have hfinish : ∀ {R : Type} {s₁ : Reliable T C W E N} {cx : W} {work : Work} {budget : Budget}
      (op : Op) (poll : Poll R), Drive s cx .new work budget s₁ → s' = s₁.finish op cx poll →
        Asked s s' := by
    intro R s₁ cx work budget op poll hdrive hs'
    have hwoken := finish_woken s₁ op cx poll
    have hle := hwoken.effort_le
    have hdrive_le := hdrive.effort_le hinv
    rw [← hs'] at hwoken hle
    have hhealth₁ : s₁.health = .ok := by
      obtain ⟨waiters, wakes, rfl, -⟩ := hwoken
      exact hhealth
    exact (hdrive.idle hinv hsettled hhealth₁ (by omega)).woken hwoken
  have hfailed : ∀ {R : Type} {s₁ s₂ : Reliable T C W E N} {error : ConnectionError E} {cx : W}
      (op : Op) (poll : Poll R), s₁.failure = (some error, s₂) → s' ≠ s₂.finish op cx poll := by
    intro R s₁ s₂ error cx op poll hfailure hs'
    obtain ⟨waiters, wakes, hwoken, -⟩ := finish_woken s₂ op cx poll
    obtain ⟨rfl, -⟩ := failure_eq_some hfailure
    simp [hs', hwoken] at hhealth
  cases h with
  | readEmpty => cases hdrives
  | @readData cx buf bytes work budget len s₁ hne hdrive hdata hlen hbytes =>
      -- Bytes were delivered, which is some effort.
      have hinv₁ : Inv s₁ := hinv.moves hfits (hdrive.moves hinv)
      have hroom := hfits.maxPayload_le
      have hend := hinv₁.rxEnd_le
      have hbuf : 0 < buf.length := List.length_pos_iff.mpr hne
      have hpos : 0 < bytes.length := by
        rw [hbytes, List.length_drop, List.length_take, Bytes.length_toList]
        omega
      have hmore : effort s₁.trace < effort (s₁.trace ++ [.delivered bytes]) :=
        effort_lt List.prefix_rfl (by simp only [effort, delivered_singleton, Event.deliveredBytes]; omega)
      have hfinish_le := (finish_woken ({ s₁ with rxStart := s₁.rxStart + len }.log
        (.delivered bytes)) .read cx (.ready (.ok len : Except (ConnectionError E) Nat))).effort_le
      have hdrive_le := hdrive.effort_le hinv
      rw [log_trace] at hfinish_le
      dsimp only at hfinish_le
      omega
  | readError cx hne hdrive hdata hfailure => exact absurd rfl (hfailed _ _ hfailure)
  | readPending cx hne hdrive hdata =>
      refine ⟨hfinish _ _ hdrive rfl, fun _ _ _ => ?_⟩
      obtain ⟨waiters, wakes, hwoken, -⟩ := finish_woken _ .read cx
        (.pending : Poll (Except (ConnectionError E) Nat))
      rw [hwoken]
      exact List.drop_of_length_le (by simp; omega)
  | writeEmpty => cases hdrives
  | @write cx _ poll s₁ hne hqueue =>
      have hsame := (finish_woken s₁ .write cx poll).neutral.accounts.1
      refine ⟨?_, fun _ _ hcall => by cases hcall⟩
      have hqueue' := hqueue
      cases hqueue with
      | failed _ hfailure => exact absurd rfl (hfailed _ _ hfailure)
      | busy hdrive => exact hfinish _ _ hdrive rfl
      | accepted =>
          obtain ⟨payload, hpayload⟩ := hqueue'.queues hfits hinv hne
          simp [hsame, hpayload] at hqueued
  | flushError cx _ hfailure => exact absurd rfl (hfailed _ _ hfailure)
  | flushReady cx hdrive => exact ⟨hfinish _ _ hdrive rfl, fun _ _ hcall => by cases hcall⟩
  | flushPending cx hdrive => exact ⟨hfinish _ _ hdrive rfl, fun _ _ hcall => by cases hcall⟩
  | progressError cx _ hfailure => exact absurd rfl (hfailed _ _ hfailure)
  | progressPending cx hdrive => exact ⟨hfinish _ _ hdrive rfl, fun _ _ hcall => by cases hcall⟩
  | cancel => cases hdrives

/-! ## Deadlines -/

/-- A transmission was started whose deadline has not passed. -/
def Awaits (s : Reliable T C W E N) : Prop :=
  s.health = .ok ∧ (s.tx = .sending ∨ s.tx = .waiting ∧ s.finalInput = none)

/-- For every deadline that passed a transmission was started, and for one that is awaited, unless
it was the last one. -/
structure Expired (s : Reliable T C W E N) : Prop where
  passed : expirations s.trace ≤ transmitted s.trace + timeouts s.trace
  awaited : Awaits s → expirations s.trace + 1 ≤ transmitted s.trace + timeouts s.trace

section

omit [Target]

/-- Where no deadline passes, the account stays as it is. -/
theorem Expired.grow (h : Expired s) {events : List (Event W E)}
    (htrace : s'.trace = s.trace ++ events) (hnone : ∀ event ∈ events, event.expires = false)
    (hawaits : Awaits s' → Awaits s) : Expired s' := by
  have hzero : expirations events = 0 :=
    List.countP_eq_zero.mpr fun event hevent => by simp [hnone event hevent]
  have hpassed := h.passed
  have hawaited := h.awaited
  constructor
  · rw [htrace, expirations_append, transmitted_append, timeouts_append]
    omega
  · intro hawaits'
    have := hawaited (hawaits hawaits')
    rw [htrace, expirations_append, transmitted_append, timeouts_append]
    omega

/-- A frame is started, perhaps a transmission. -/
theorem Expired.start (h : Expired s) (hstart : Start s s') : Expired s' := by
  cases hstart with
  | going => exact h
  | ack => exact h.grow rfl (by simp [Event.expires]) id
  | data hout hack htx =>
      have hpassed := h.passed
      refine ⟨?_, fun _ => ?_⟩ <;>
      · rw [log_trace, expirations_append, transmitted_append, timeouts_append]
        simp only [expirations, transmitted, timeouts, List.countP_singleton] at hpassed ⊢
        simp only [Event.expires, Event.transmits, Event.timesOut, if_true, Bool.false_eq_true,
          if_false]
        omega

theorem Expired.flush (h : Expired s) {cx : W} {frame : Frame} {work : Outcome E}
    (hflush : FlushFrame s cx frame work s') : Expired s' := by
  cases hflush with
  | sent transport timer now hframe htx =>
      exact h.grow (List.append_assoc ..) (by simp [Event.expires])
        fun hawaits => ⟨hawaits.1, .inl htx⟩
  | _ => exact h.grow rfl (by simp [Event.expires]) id

theorem Expired.timer (h : Expired s) {cx : W} {input : Work} {work : Outcome E}
    (hhealth : s.health = .ok) (htimed : Timed s cx input work s') : Expired s' := by
  cases htimed with
  | unarmed => exact h
  | pending => exact h.grow rfl (by simp [Event.expires]) id
  | expired timer htx hfinal =>
      have hawaited := h.awaited ⟨hhealth, .inr ⟨htx, hfinal⟩⟩
      refine ⟨?_, fun hawaits => by simp [Awaits, htx] at hawaits⟩
      rw [log_trace, expirations_append, transmitted_append, timeouts_append]
      simp only [expirations, transmitted, timeouts, List.countP_singleton] at hawaited ⊢
      simp only [Event.expires, Event.transmits, Event.timesOut, if_true, Bool.false_eq_true,
        if_false]
      omega
  | timeout left htx hfinal =>
      have hpassed := h.passed
      refine ⟨?_, fun _ => ?_⟩ <;>
      · rw [log_trace, expirations_append, transmitted_append, timeouts_append]
        simp only [expirations, transmitted, timeouts, List.countP_singleton] at hpassed ⊢
        simp only [Event.expires, Event.transmits, Event.timesOut, if_true, Bool.false_eq_true,
          if_false]
        omega
  | requeue => exact h.grow (List.append_nil _).symm (by simp) (by simp [Awaits])
  | listening => exact h

end

/-- A packet that is taken leaves the packet in flight alone, or releases it. -/
theorem Take.awaits {packet : Packet} (h : Take s packet s') (hawaits : Awaits s') : Awaits s := by
  cases h with
  | release => simp [Awaits] at hawaits
  | _ => exact hawaits

theorem ProcessFrame.awaits {body : List UInt8} (h : ProcessFrame s body s') (hawaits : Awaits s') :
    Awaits s := by
  cases h with
  | undecodable => exact hawaits
  | unparsable => exact hawaits
  | parsed _ _ htake => exact htake.awaits hawaits

theorem Expired.act (h : Expired s) (hhealth : s.health = .ok) (hact : Act s s') : Expired s' := by
  cases hact with
  | buffer => exact h.grow (List.append_nil _).symm (by simp) id
  | start hstart => exact h.start hstart
  | write _ hwrite => cases hwrite <;> exact h.grow rfl (by simp [Event.expires]) id
  | flush _ hflush => exact h.flush hflush
  | ask => exact h.grow rfl (by simp [Event.expires]) id
  | read =>
      exact h.grow rfl (by simp [Event.expires]) fun hawaits => ⟨hawaits.1, by simpa using hawaits.2⟩
  | frame _ _ _ hframe =>
      obtain ⟨events, htrace, hevents⟩ := hframe.adds
      refine h.grow htrace (fun event hevent => ?_) hframe.awaits
      have := hevents event hevent
      cases event <;> simp_all [Event.input, Event.expires]
  | timer htimed => exact h.timer hhealth htimed

theorem Expired.beat (h : Expired s) (hbeat : Beat Act s s') : Expired s' := by
  cases hbeat with
  | inside hhealth hact => exact h.act hhealth hact
  | note event haside =>
      refine h.grow rfl (List.forall_mem_singleton.mpr ?_) id
      cases event <;> simp_all [Event.aside, Event.expires]
  | fail error =>
      -- A connection that has failed awaits nothing.
      have hhealth := health_fail s error
      rw [fail_eq] at hhealth ⊢
      exact h.grow (List.append_nil _).symm (by simp) fun hawaits => absurd hawaits.1 hhealth
  | report => exact h.grow (List.append_nil _).symm (by simp) (by simp [Awaits])
  | queue => exact h.grow rfl (by simp [Event.expires]) (by simp [Awaits])
  | deliver => exact h.grow rfl (by simp [Event.expires]) id
  | wake hwoken =>
      obtain ⟨waiters, wakes, rfl, hwakes⟩ := hwoken
      refine h.grow rfl (fun event hevent => ?_) id
      obtain ⟨op, waker, rfl⟩ := hwakes event hevent
      rfl
  | environment => exact h.grow (List.append_nil _).symm (by simp) id

/-! ## Bounds -/

omit [Target] in
/-- A list of few distinct numbers, none of which is in it often, is short. -/
theorem length_le_of_count {l : List UInt32} {n k : Nat} (hlt : ∀ seq ∈ l, seq.toNat < n)
    (hcount : ∀ seq, l.count seq ≤ k) : l.length ≤ n * k := by
  have hcard : l.toFinset.card ≤ n := by
    rw [← Finset.card_range n]
    refine Finset.card_le_card_of_injOn UInt32.toNat (fun seq hseq => ?_) fun _ _ _ _ h =>
      UInt32.toNat_inj.mp h
    exact Finset.mem_coe.mpr (Finset.mem_range.mpr (hlt seq (List.mem_toFinset.mp hseq)))
  calc l.length = ∑ seq ∈ l.toFinset, l.count seq := (List.sum_toFinset_count_eq_length l).symm
    _ ≤ l.toFinset.card * k := Finset.sum_le_card_nsmul _ _ _ fun seq _ => hcount seq
    _ ≤ n * k := Nat.mul_le_mul_right k hcard

section Runs

variable [Waker W] [Transport T W E] [Timer C W]

theorem Reachable.expired (h : Reachable s) : Expired s :=
  (h.visited covers_act).keep
    (fun _ _ _ => ⟨Nat.zero_le _, fun hawaits => by simp [Awaits, initial] at hawaits⟩)
    fun _ hs hbeat => hs.beat hbeat

/-- Every packet is transmitted once, and as often again as the configuration allows. -/
theorem Reachable.transmitted_le (h : Reachable s) :
    transmitted s.trace ≤ (queued s.trace).length * (s.config.maxRetries.toNat + 1) := by
  have hlength : transmitted s.trace = (s.trace.filterMap Event.transmittedSeq?).length := by
    rw [transmitted, List.length_filterMap_eq_countP]
    refine List.countP_congr fun event _ => ?_
    cases event with
    | started kind => cases kind <;> simp [Event.transmits, Event.transmittedSeq?]
    | _ => simp [Event.transmits, Event.transmittedSeq?]
  rw [hlength, h.history.counts.txNext]
  refine length_le_of_count (fun seq hseq => ?_) fun seq => ?_
  · obtain ⟨event, hevent, hsome⟩ := List.mem_filterMap.mp hseq
    cases event with
    | started kind seq' bytes =>
        cases kind with
        | ack => cases hsome
        | data =>
            obtain rfl : seq' = seq := Option.some.inj hsome
            exact h.history.order.2 ⟨.data, seq', bytes⟩
              (List.mem_filterMap.mpr ⟨_, hevent, rfl⟩) rfl
    | _ => cases hsome
  · have hbound := (h.visited covers_act).transmits.spaced.bound seq
    rw [List.count_filterMap]
    refine (Nat.le_of_eq (List.countP_congr fun event _ => ?_)).trans hbound
    cases event with
    | started kind => cases kind <;> simp [Event.sends, Event.transmittedSeq?]
    | _ => simp [Event.sends, Event.transmittedSeq?]

omit [Target] [Waker W] in
/-- A frame is a transmission or an acknowledgement. -/
theorem length_startedFrames (trace : List (Event W E)) :
    (startedFrames trace).length = transmitted trace + acks trace := by
  induction trace with
  | nil => rfl
  | cons event trace ih =>
      rw [← List.singleton_append, startedFrames_append, transmitted_append, acks_append,
        List.length_append, ih]
      have hone : (startedFrames [event]).length = transmitted [event] + acks [event] := by
        cases event with
        | started kind => cases kind <;> rfl
        | _ => rfl
      omega

/-- What was moved, in terms of bytes and frames. -/
theorem Reachable.effort_le (h : Reachable s) : effort s.trace ≤
    (accepted s.trace).length + (received s.trace).length + (delivered s.trace).length +
      2 * acks s.trace + 3 * transmitted s.trace + timeouts s.trace := by
  have hpassed := h.expired.passed
  have hflushes := h.history.line.flushes_eq
  have hstarted := length_startedFrames s.trace
  rw [started_lineEvents, List.length_map] at hflushes
  unfold effort
  omega

end Runs

end Reliable

end CobsIoAsync.Connection
