import CobsIoAsync.Connection.Pending
import CobsIoAsync.Reasoning.Both

/-!
# Connection.Lockstep — what a connection can tell of its environment

A connection knows its transport, its timer and its wakers by what they answer.  In two environments
that give the same answers it goes through the same states, whatever they look like inside.
-/

namespace CobsIoAsync.Connection

open Reasoning Protocol

/-- The number of bytes that a read of `n` bytes gives. -/
def readCount {E : Type} (n : Nat) : Poll (Except E Nat) → Nat
  | .ready (.ok read) => min read n
  | _ => 0

/-- A relation between two environments that give the same answers: between their wakers, between
the states of their links, each with what was recorded of it, and between the states of their
timers. -/
structure Lockstep (T C W T' C' W' E : Type) [Transport T W E] [Timer C W] [Transport T' W' E]
    [Timer C' W'] where
  waker : W → W' → Prop
  link : T → List (Event W E) → T' → List (Event W' E) → Prop
  clock : C → C' → Prop
  read : ∀ {n : Nat} {t : T} {trace : List (Event W E)} {t' : T'} {trace' : List (Event W' E)}
    {cx : W} {cx' : W'} (buf : Bytes n), link t trace t' trace' → waker cx cx' →
      (Transport.pollRead t cx buf).2 = (Transport.pollRead t' cx' buf).2 ∧
        link (Transport.pollRead t cx buf).1
          (trace ++ [.pollRead cx n (Transport.pollRead t cx buf).2.2
            ((Transport.pollRead t cx buf).2.1.toList.take
              (readCount n (Transport.pollRead t cx buf).2.2))])
          (Transport.pollRead t' cx' buf).1
          (trace' ++ [.pollRead cx' n (Transport.pollRead t' cx' buf).2.2
            ((Transport.pollRead t' cx' buf).2.1.toList.take
              (readCount n (Transport.pollRead t' cx' buf).2.2))])
  write : ∀ {t : T} {trace : List (Event W E)} {t' : T'} {trace' : List (Event W' E)}
    {cx : W} {cx' : W'} (frame : Frame) (pending : List UInt8), link t trace t' trace' →
      waker cx cx' → (Transport.pollWrite t cx pending).2 = (Transport.pollWrite t' cx' pending).2 ∧
        link (Transport.pollWrite t cx pending).1
          (trace ++ [.pollWrite cx frame pending (Transport.pollWrite t cx pending).2])
          (Transport.pollWrite t' cx' pending).1
          (trace' ++ [.pollWrite cx' frame pending (Transport.pollWrite t' cx' pending).2])
  flush : ∀ {t : T} {trace : List (Event W E)} {t' : T'} {trace' : List (Event W' E)}
    {cx : W} {cx' : W'} (frame : Frame), link t trace t' trace' → waker cx cx' →
      (Transport.pollFlush t cx).2 = (Transport.pollFlush t' cx').2 ∧
        link (Transport.pollFlush t cx).1
          (trace ++ [.pollFlush cx frame (Transport.pollFlush t cx).2])
          (Transport.pollFlush t' cx').1
          (trace' ++ [.pollFlush cx' frame (Transport.pollFlush t' cx').2])
  left : ∀ {t : T} {trace : List (Event W E)} {t' : T'} {trace' : List (Event W' E)}
    (event : Event W E), event.asks = false → link t trace t' trace' →
      link t (trace ++ [event]) t' trace'
  right : ∀ {t : T} {trace : List (Event W E)} {t' : T'} {trace' : List (Event W' E)}
    (event : Event W' E), event.asks = false → link t trace t' trace' →
      link t trace t' (trace' ++ [event])
  now : ∀ {c : C} {c' : C'}, clock c c' →
    (Timer.now W c).2 = (Timer.now W' c').2 ∧ clock (Timer.now W c).1 (Timer.now W' c').1
  deadline : ∀ {c : C} {c' : C'} {cx : W} {cx' : W'} (deadline : UInt64), clock c c' →
    waker cx cx' →
      (Timer.pollDeadline c cx deadline).2 = (Timer.pollDeadline c' cx' deadline).2 ∧
        clock (Timer.pollDeadline c cx deadline).1 (Timer.pollDeadline c' cx' deadline).1

/-- The same call, with wakers that are related. -/
inductive Call.Alike {T C W T' C' W' E : Type} [Transport T W E] [Timer C W] [Transport T' W' E]
    [Timer C' W'] (R : Lockstep T C W T' C' W' E) : Call W → Call W' → Prop
  | read {cx : W} {cx' : W'} (buf : List UInt8) (hcx : R.waker cx cx') :
      Call.Alike R (.read cx buf) (.read cx' buf)
  | write {cx : W} {cx' : W'} (buf : List UInt8) (hcx : R.waker cx cx') :
      Call.Alike R (.write cx buf) (.write cx' buf)
  | flush {cx : W} {cx' : W'} (hcx : R.waker cx cx') : Call.Alike R (.flush cx) (.flush cx')
  | progress {cx : W} {cx' : W'} (hcx : R.waker cx cx') :
      Call.Alike R (.progress cx) (.progress cx')
  | cancel (operation : PendingOperation) :
      Call.Alike R (.cancel operation) (.cancel operation)

namespace Reliable

variable {T C W T' C' W' E : Type} {N : Nat}

/-- The connection in another environment. -/
@[reducible] def transplant (s : Reliable T C W E N) (transport : T') (timer : C')
    (waiters : Waiters W') (trace : List (Event W' E)) : Reliable T' C' W' E N :=
  { s with transport, timer, waiters, trace }

variable [Transport T W E] [Timer C W] [Transport T' W' E] [Timer C' W']

/-- Two connections are the same but for their environments, which are related. -/
inductive Alike (R : Lockstep T C W T' C' W' E) (s : Reliable T C W E N) :
    Reliable T' C' W' E N → Prop
  | mk (transport : T') (timer : C') (waiters : Waiters W') (trace : List (Event W' E))
      (hlink : R.link s.transport s.trace transport trace) (hclock : R.clock s.timer timer) :
      Alike R s (s.transplant transport timer waiters trace)

/-- Two computations return the same, and leave connections that are alike. -/
inductive Ends (R : Lockstep T C W T' C' W' E) {α : Type} :
    α × Reliable T C W E N → α × Reliable T' C' W' E N → Prop
  | mk (a : α) {s : Reliable T C W E N} {s' : Reliable T' C' W' E N} (h : Alike R s s') :
      Ends R (a, s) (a, s')

/-- The same, where they return two values. -/
inductive Ends₂ (R : Lockstep T C W T' C' W' E) {α β : Type} :
    α × β × Reliable T C W E N → α × β × Reliable T' C' W' E N → Prop
  | mk (a : α) (b : β) {s : Reliable T C W E N} {s' : Reliable T' C' W' E N} (h : Alike R s s') :
      Ends₂ R (a, b, s) (a, b, s')

variable {R : Lockstep T C W T' C' W' E} {s : Reliable T C W E N} {s' : Reliable T' C' W' E N}

/-- Events that ask nothing of the link may differ. -/
theorem Alike.log_left (h : Alike R s s') {event : Event W E} (hevent : event.asks = false) :
    Alike R (s.log event) s' := by
  cases h with
  | mk transport timer waiters trace hlink hclock =>
      exact .mk _ _ _ _ (R.left _ hevent hlink) hclock

theorem Alike.log_right (h : Alike R s s') {event : Event W' E} (hevent : event.asks = false) :
    Alike R s (s'.log event) := by
  cases h with
  | mk transport timer waiters trace hlink hclock =>
      exact .mk _ _ _ _ (R.right _ hevent hlink) hclock

theorem Alike.log (h : Alike R s s') {event : Event W E} {event' : Event W' E}
    (hevent : event.asks = false) (hevent' : event'.asks = false) :
    Alike R (s.log event) (s'.log event') := (h.log_left hevent).log_right hevent'

/-! ## Output -/

theorem startOutput_both (h : Alike R s s') :
    Both (Option.Rel (Alike R)) s.startOutput s'.startOutput := by
  cases h with
  | mk transport timer waiters trace hlink hclock =>
      unfold startOutput
      dsimp only
      split
      · split
        · refine .bind_same fun encoded => ?_
          refine .ret (.some (Alike.log ?_ rfl rfl))
          exact .mk _ _ _ _ hlink hclock
        · split
          · refine .ret (.some (Alike.log ?_ rfl rfl))
            exact .mk _ _ _ _ hlink hclock
          · exact .ret .none
      · exact .ret (.some (.mk _ _ _ _ hlink hclock))

theorem writeFrame_both [Target] (h : Alike R s s') {cx : W} {cx' : W'} (hcx : R.waker cx cx')
    (frame : Frame) (offset : Nat) :
    Both (Ends R) (s.writeFrame cx frame offset) (s'.writeFrame cx' frame offset) := by
  cases h with
  | mk transport timer waiters trace hlink hclock =>
      unfold writeFrame
      refine .bind_same fun pending => ?_
      have hwrite := R.write frame pending hlink hcx
      generalize Transport.pollWrite s.transport cx pending = result at hwrite ⊢
      generalize Transport.pollWrite transport cx' pending = result' at hwrite ⊢
      obtain ⟨t, poll⟩ := result
      obtain ⟨t', poll'⟩ := result'
      obtain ⟨rfl, hlink'⟩ := hwrite
      cases poll with
      | pending => exact .ret (.mk _ (.mk _ _ _ _ hlink' hclock))
      | ready result =>
          cases result with
          | error error => exact .ret (.mk _ (.mk _ _ _ _ hlink' hclock))
          | ok written =>
              cases written with
              | zero => exact .ret (.mk _ (.mk _ _ _ _ hlink' hclock))
              | succ written =>
                  refine .bind_same fun next => ?_
                  exact .ret (.mk _ (.mk _ _ _ _ hlink' hclock))

theorem flushFrame_ends (h : Alike R s s') {cx : W} {cx' : W'} (hcx : R.waker cx cx')
    (frame : Frame) : Ends R (s.flushFrame cx frame) (s'.flushFrame cx' frame) := by
  cases h with
  | mk transport timer waiters trace hlink hclock =>
      unfold flushFrame
      have hflush := R.flush frame hlink hcx
      have hnow := R.now hclock
      dsimp only
      generalize Transport.pollFlush s.transport cx = result at hflush ⊢
      generalize Transport.pollFlush transport cx' = result' at hflush ⊢
      obtain ⟨t, poll⟩ := result
      obtain ⟨t', poll'⟩ := result'
      obtain ⟨rfl, hlink'⟩ := hflush
      cases poll with
      | pending => exact .mk _ (.mk _ _ _ _ hlink' hclock)
      | ready result =>
          cases result with
          | error error => exact .mk _ (.mk _ _ _ _ hlink' hclock)
          | ok _ =>
              by_cases hsent : frame = .data ∧ s.tx = .sending
              · simp only [log, eq_true hsent, if_true, hnow.1]
                exact .mk _ (.mk _ _ _ _ (R.right _ rfl (R.left _ rfl hlink')) hnow.2)
              · simp only [log, eq_false hsent, if_false]
                exact .mk _ (.mk _ _ _ _ hlink' hclock)

variable [Target]

theorem pollOutput_both (h : Alike R s s') {cx : W} {cx' : W'} (hcx : R.waker cx cx')
    (budget : Budget) : Both (Ends₂ R) (s.pollOutput cx budget) (s'.pollOutput cx' budget) := by
  unfold pollOutput
  refine .bind (startOutput_both h) fun started started' hstarted => ?_
  cases hstarted with
  | none => exact .ret (.mk _ _ h)
  | @some s₁ s₁' h₁ =>
      have hout : s₁.out = s₁'.out := by cases h₁; rfl
      dsimp only
      generalize budget.spend = spent
      obtain ⟨enough, budget⟩ := spent
      cases enough with
      | false => exact .ret (.mk _ _ h₁)
      | true =>
          dsimp only
          rw [← hout]
          cases s₁.out with
          | idle => exact .ret (.mk _ _ h₁)
          | writing frame offset =>
              refine .bind (writeFrame_both h₁ hcx frame offset) fun r r' hr => ?_
              cases hr with
              | mk work h₂ => exact .ret (.mk _ _ h₂)
          | flushing frame =>
              have hflush := flushFrame_ends h₁ hcx frame
              dsimp only
              generalize s₁.flushFrame cx frame = r at hflush ⊢
              generalize s₁'.flushFrame cx' frame = r' at hflush ⊢
              cases hflush with
              | mk work h₂ => exact .ret (.mk _ _ h₂)

/-! ## Input -/

theorem processPacket_both (h : Alike R s s') (packet : Packet) :
    Both (Alike R) (s.processPacket packet) (s'.processPacket packet) := by
  cases h with
  | mk transport timer waiters trace hlink hclock =>
      have hsame : Alike R s (s.transplant transport timer waiters trace) :=
        .mk _ _ _ _ hlink hclock
      cases packet with
      | ack session seq =>
          unfold processPacket
          dsimp only
          split
          · exact .ret (.mk _ _ _ _ (R.right _ rfl (R.left _ rfl hlink)) hclock)
          · exact .ret hsame
      | data session seq payload =>
          unfold processPacket
          dsimp only
          split
          · exact .ret hsame
          · split
            · split
              · refine .bind_same fun rxPayload => .bind_same fun rxNext => ?_
                exact .ret (.mk _ _ _ _ (R.right _ rfl (R.left _ rfl hlink)) hclock)
              · exact .ret hsame
            · split
              · exact .ret (.mk _ _ _ _ hlink hclock)
              · exact .ret hsame

theorem processFrame_both (h : Alike R s s') (stop : Nat) :
    Both (Alike R) (s.processFrame stop) (s'.processFrame stop) := by
  cases h with
  | mk transport timer waiters trace hlink hclock =>
      unfold processFrame
      refine .bind_same fun source => ?_
      dsimp only [log]
      generalize Sync.decodeToSlice source s.scratch = result
      obtain ⟨decoded, scratch⟩ := result
      have hframe := R.right (.frame (source.take stop)) rfl
        (R.left (.frame (source.take stop)) rfl hlink)
      cases decoded with
      | error error => exact .ret (.mk _ _ _ _ hframe hclock)
      | ok decoded =>
          refine .bind_same fun packet => .bind_same fun parsed => ?_
          have hdecoded := R.right (.decoded packet) rfl
            (R.left (.decoded packet) rfl hframe)
          cases parsed with
          | none => exact .ret (.mk _ _ _ _ hdecoded hclock)
          | some packet =>
              refine processPacket_both ?_ packet
              exact .mk _ _ _ _ (R.right _ rfl (R.left _ rfl hdecoded)) hclock

theorem processSegment_both (h : Alike R s s') (stop : Nat) :
    Both (Alike R) (s.processSegment stop) (s'.processSegment stop) := by
  have h' := h
  cases h with
  | mk transport timer waiters trace hlink hclock =>
      unfold processSegment
      dsimp only
      split
      · exact .ret (.mk _ _ _ _ hlink hclock)
      · split
        · exact processFrame_both h' stop
        · exact .ret h'

theorem processInputLoop_both (fuel : Nat) {s : Reliable T C W E N} {s' : Reliable T' C' W' E N}
    (h : Alike R s s') : Both (Alike R) (processInputLoop fuel s) (processInputLoop fuel s') := by
  induction fuel generalizing s s' with
  | zero => exact .panic
  | succ fuel ih =>
      have h' := h
      cases h with
      | mk transport timer waiters trace hlink hclock =>
          unfold processInputLoop
          refine .bind_same fun seen => ?_
          cases seen.findIdx? (· == 0) with
          | none =>
              dsimp only
              split
              · exact .ret (.mk _ _ _ _ hlink hclock)
              · exact .ret h'
          | some stop =>
              refine .bind (processSegment_both h' stop) fun s₁ s₁' h₁ => ?_
              cases h₁ with
              | mk transport timer waiters trace hlink hclock =>
                  refine .bind_same fun next => .bind_same fun rxBuf => .bind_same fun rxLen => ?_
                  exact ih (.mk _ _ _ _ hlink hclock)

theorem processInput_both (h : Alike R s s') :
    Both (Alike R) s.processInput s'.processInput := by
  have hlen : s'.rxLen = s.rxLen := by cases h; rfl
  unfold processInput
  rw [hlen]
  exact processInputLoop_both _ h

theorem pollInput_both (h : Alike R s s') {cx : W} {cx' : W'} (hcx : R.waker cx cx')
    (budget : Budget) : Both (Ends₂ R) (s.pollInput cx budget) (s'.pollInput cx' budget) := by
  have h' := h
  cases h with
  | mk transport timer waiters trace hlink hclock =>
      unfold pollInput
      generalize budget.spend = spent
      obtain ⟨enough, budget⟩ := spent
      cases enough with
      | false => exact .ret (.mk _ _ h')
      | true =>
          refine .bind_same fun free => ?_
          have hread := R.read (s.rxBuf.dropFrom s.rxLen) hlink hcx
          dsimp only
          generalize Transport.pollRead s.transport cx (s.rxBuf.dropFrom s.rxLen) = result
            at hread ⊢
          generalize Transport.pollRead transport cx' (s.rxBuf.dropFrom s.rxLen) = result'
            at hread ⊢
          obtain ⟨t, free, poll⟩ := result
          obtain ⟨t', free', poll'⟩ := result'
          obtain ⟨hsame, hlink'⟩ := hread
          obtain ⟨rfl, rfl⟩ := Prod.mk.inj hsame
          cases poll with
          | pending => exact .ret (.mk _ _ (.mk _ _ _ _ hlink' hclock))
          | ready result =>
              cases result with
              | error error => exact .ret (.mk _ _ (.mk _ _ _ _ hlink' hclock))
              | ok count =>
                  cases count with
                  | zero => exact .ret (.mk _ _ (.mk _ _ _ _ hlink' hclock))
                  | succ count =>
                      refine .bind_same fun rxLen => .bind (processInput_both ?_)
                        fun s₁ s₁' h₁ => .ret (.mk _ _ h₁)
                      exact .mk _ _ _ _ hlink' hclock

/-! ## Timer and driving -/

omit [Target] in
theorem pollTimer_both (h : Alike R s s') {cx : W} {cx' : W'} (hcx : R.waker cx cx')
    (input : Work) : Both (Ends R) (s.pollTimer cx input) (s'.pollTimer cx' input) := by
  have h' := h
  cases h with
  | mk transport timer waiters trace hlink hclock =>
      unfold pollTimer
      dsimp only
      split
      · exact .ret (.mk _ h')
      · cases s.finalInput with
        | none =>
            have hdeadline := R.deadline s.txDeadline hclock hcx
            dsimp only
            generalize Timer.pollDeadline s.timer cx s.txDeadline = result at hdeadline ⊢
            generalize Timer.pollDeadline timer cx' s.txDeadline = result' at hdeadline ⊢
            obtain ⟨c, poll⟩ := result
            obtain ⟨c', poll'⟩ := result'
            obtain ⟨rfl, hclock'⟩ := hdeadline
            have hasked := R.right (.pollDeadline cx' s.txDeadline poll) rfl
              (R.left (.pollDeadline cx s.txDeadline poll) rfl hlink)
            cases poll with
            | pending => exact .ret (.mk _ (.mk _ _ _ _ hasked hclock'))
            | ready _ => exact .ret (.mk _ (.mk _ _ _ _ hasked hclock'))
        | some left =>
            dsimp only
            split
            · split
              · exact .ret (.mk _ (.mk _ _ _ _ (R.right _ rfl (R.left _ rfl hlink)) hclock))
              · exact .bind_same fun txRetries => .ret (.mk _ (.mk _ _ _ _ hlink hclock))
            · exact .ret (.mk _ h')

theorem step_both (h : Alike R s s') {cx : W} {cx' : W'} (hcx : R.waker cx cx')
    (budget : Budget) : Both (Ends₂ R) (s.step cx budget) (s'.step cx' budget) := by
  unfold step
  refine .bind (pollOutput_both h hcx budget) fun r r' hr => ?_
  cases hr with
  | mk output budget h₁ =>
      cases output with
      | error error => exact .ret (.mk _ _ h₁)
      | ok output =>
          refine .bind (pollInput_both h₁ hcx budget) fun r r' hr => ?_
          cases hr with
          | mk input budget h₂ =>
              cases input with
              | error error => exact .ret (.mk _ _ h₂)
              | ok input =>
                  refine .bind (pollTimer_both h₂ hcx input) fun r r' hr => ?_
                  cases hr with
                  | mk timer h₃ => cases timer <;> exact .ret (.mk _ _ h₃)

omit [Target] in
theorem Alike.fail (h : Alike R s s') (error : ConnectionError E) :
    Alike R (s.fail error) (s'.fail error) := by
  cases h with
  | mk transport timer waiters trace hlink hclock =>
      unfold Reliable.fail
      dsimp only
      cases s.health <;> exact .mk _ _ _ _ hlink hclock

theorem driveLoop_both {cx : W} {cx' : W'} (hcx : R.waker cx cx') (fuel : Nat)
    {s : Reliable T C W E N} {s' : Reliable T' C' W' E N} (h : Alike R s s') (budget : Budget) :
    Both (Ends₂ R) (driveLoop cx fuel s budget) (driveLoop cx' fuel s' budget) := by
  induction fuel generalizing s s' budget with
  | zero => exact .panic
  | succ fuel ih =>
      unfold driveLoop
      have hstart : Alike R (s.log .step) (s'.log .step) := h.log rfl rfl
      refine .bind (step_both hstart hcx budget) fun r r' hr => ?_
      cases hr with
      | @mk work budget s₁ s₁' h₁ =>
          have hstepped : Alike R (s₁.log (.stepped work)) (s₁'.log (.stepped work)) :=
            h₁.log rfl rfl
          cases work with
          | error error => exact .ret (.mk _ _ (hstepped.fail error))
          | ok work =>
              cases work with
              | progress => exact ih hstepped budget
              | blocked => exact .ret (.mk _ _ hstepped)
              | yield => exact .ret (.mk _ _ (hstepped.log rfl rfl))

theorem drive_both (h : Alike R s s') {cx : W} {cx' : W'} (hcx : R.waker cx cx')
    (budget : Budget) : Both (Ends₂ R) (s.drive cx budget) (s'.drive cx' budget) := by
  have hhealth : s'.health = s.health := by cases h; rfl
  unfold drive
  rw [hhealth]
  cases s.health with
  | ok => exact driveLoop_both hcx _ h budget
  | _ => exact .ret (.mk _ _ h)

/-! ## Calls -/

section

omit [Target]

/-- Waking tasks changes nothing that counts. -/
theorem Alike.woken_left {t : Reliable T C W E N} (h : Alike R s s') (hwoken : Woken s t) :
    Alike R t s' := by
  obtain ⟨waiters, wakes, rfl, hwakes⟩ := hwoken
  cases h with
  | mk transport timer waiters' trace hlink hclock =>
      refine .mk _ _ _ _ ?_ hclock
      have hasks : ∀ event ∈ wakes, event.asks = false := by
        intro event hevent
        obtain ⟨op, waker, rfl⟩ := hwakes event hevent
        rfl
      clear hwakes
      induction wakes using List.reverseRecOn with
      | nil => simpa using hlink
      | append_singleton wakes event ih =>
          rw [← List.append_assoc]
          exact R.left _ (hasks event (by simp))
            (ih fun event' hevent => hasks event' (by simp [hevent]))

theorem Alike.woken_right {t' : Reliable T' C' W' E N} (h : Alike R s s') (hwoken : Woken s' t') :
    Alike R s t' := by
  obtain ⟨waiters, wakes, rfl, hwakes⟩ := hwoken
  cases h with
  | mk transport timer waiters' trace hlink hclock =>
      refine .mk _ _ _ _ ?_ hclock
      have hasks : ∀ event ∈ wakes, event.asks = false := by
        intro event hevent
        obtain ⟨op, waker, rfl⟩ := hwakes event hevent
        rfl
      clear hwakes
      induction wakes using List.reverseRecOn with
      | nil => simpa using hlink
      | append_singleton wakes event ih =>
          rw [← List.append_assoc]
          exact R.right _ (hasks event (by simp))
            (ih fun event' hevent => hasks event' (by simp [hevent]))

theorem Alike.finish [Waker W] [Waker W'] {A : Type} (h : Alike R s s') (op : Op) (cx : W)
    (cx' : W') (poll : Poll A) :
    Alike R (s.finish op cx poll) (s'.finish op cx' poll) :=
  (h.woken_left (finish_woken s op cx poll)).woken_right (finish_woken s' op cx' poll)

theorem failure_ends (h : Alike R s s') : Ends R s.failure s'.failure := by
  have h' := h
  cases h with
  | mk transport timer waiters trace hlink hclock =>
      unfold failure
      dsimp only
      cases s.health with
      | ok => exact .mk _ h'
      | failed error => exact .mk _ (.mk _ _ _ _ hlink hclock)
      | reported => exact .mk _ h'

theorem Alike.exhaust (h : Alike R s s') : Alike R s.exhaust s'.exhaust := by
  have h' := h
  cases h with
  | mk transport timer waiters trace hlink hclock =>
      unfold Reliable.exhaust
      split
      · rename_i hready
        rw [if_pos (by exact hready)]
        exact (h'.log rfl rfl).fail _
      · rename_i hready
        rw [if_neg (by exact hready)]
        exact h'

theorem Alike.queue (h : Alike R s s') (txLen : Nat) (scratch txFrame : Bytes N) (txNext : Nat)
    (seq : UInt32) (payload : List UInt8) :
    Alike R
      ({ s with txLen, scratch, txFrame, txNext, txRetries := 0, tx := .queued }.log
        (.queued seq payload))
      ({ s' with txLen, scratch, txFrame, txNext, txRetries := 0, tx := .queued }.log
        (.queued seq payload)) := by
  refine Alike.log ?_ rfl rfl
  cases h with
  | mk transport timer waiters trace hlink hclock => exact .mk _ _ _ _ hlink hclock

end

theorem queuePacket_both (h : Alike R s s') {cx : W} {cx' : W'} (hcx : R.waker cx cx')
    (buf : List UInt8) : Both (Ends R) (s.queuePacket cx buf) (s'.queuePacket cx' buf) := by
  unfold queuePacket
  refine .bind (drive_both h hcx .new) fun r r' hr => ?_
  cases hr with
  | @mk work budget s₁ s₁' h₁ =>
      have hbusy : s₁'.writeReady = s₁.writeReady := by cases h₁; rfl
      have hfailure := failure_ends h₁.exhaust
      dsimp only
      simp only [Bool.not_not, ite_exhaust]
      rw [hbusy]
      generalize s₁.exhaust.failure = r at hfailure ⊢
      generalize s₁'.exhaust.failure = r' at hfailure ⊢
      cases hfailure with
      | @mk error s₂ s₂' h₂ =>
          cases error with
          | some error => exact .ret (.mk _ h₂)
          | none =>
              dsimp only
              split
              · exact .ret (.mk _ h₂)
              · have hnext : s₂'.txNext = s₂.txNext ∧ s₂'.config.session = s₂.config.session ∧
                    s₂'.scratch = s₂.scratch ∧ s₂'.txFrame = s₂.txFrame := by
                  cases h₂
                  exact ⟨rfl, rfl, rfl, rfl⟩
                rw [hnext.1, hnext.2.1, hnext.2.2.1, hnext.2.2.2]
                refine .bind_same fun payload => .bind_same fun encoded => ?_
                obtain ⟨txLen, scratch, txFrame⟩ := encoded
                refine .bind_same fun txNext => ?_
                have hqueued := h₂.queue txLen scratch txFrame txNext (UInt32.ofNat s₂.txNext)
                  payload
                dsimp only
                generalize Reliable.log _ (.queued _ payload) = q at hqueued ⊢
                generalize Reliable.log _ (.queued _ payload) = q' at hqueued ⊢
                split
                · refine .bind (drive_both hqueued hcx budget) fun r r' hr => ?_
                  cases hr with
                  | mk work budget h₃ => exact .ret (.mk _ h₃)
                · exact .ret (.mk _ hqueued)

variable [Waker W] [Waker W']

theorem pollRead_both (h : Alike R s s') {cx : W} {cx' : W'} (hcx : R.waker cx cx') {n : Nat}
    (buf : Bytes n) : Both (Ends₂ R) (s.pollRead cx buf) (s'.pollRead cx' buf) := by
  unfold pollRead
  split
  · exact .ret (.mk _ _ h)
  · refine .bind (drive_both h hcx .new) fun r r' hr => ?_
    cases hr with
    | @mk work budget s₁ s₁' h₁ =>
        have hunread : s₁'.rxStart = s₁.rxStart ∧ s₁'.rxEnd = s₁.rxEnd := by
          cases h₁
          exact ⟨rfl, rfl⟩
        dsimp only
        rw [hunread.1, hunread.2]
        split
        · cases h₁ with
          | mk transport timer waiters trace hlink hclock =>
              refine .bind_same fun stop => .bind_same fun bytes => .bind_same fun buf => ?_
              refine .ret (.mk _ _ (Alike.finish ?_ _ _ _ _))
              exact .mk _ _ _ _ (R.right _ rfl (R.left _ rfl hlink)) hclock
        · have hfailure := failure_ends h₁
          generalize s₁.failure = r at hfailure ⊢
          generalize s₁'.failure = r' at hfailure ⊢
          cases hfailure with
          | mk error h₂ => cases error <;> exact .ret (.mk _ _ (h₂.finish _ _ _ _))

theorem pollWrite_both (h : Alike R s s') {cx : W} {cx' : W'} (hcx : R.waker cx cx')
    (buf : List UInt8) : Both (Ends R) (s.pollWrite cx buf) (s'.pollWrite cx' buf) := by
  unfold pollWrite
  split
  · exact .ret (.mk _ h)
  · refine .bind (queuePacket_both h hcx buf) fun r r' hr => ?_
    cases hr with
    | mk poll h₁ => exact .ret (.mk _ (h₁.finish _ _ _ _))

theorem pollFlush_both (h : Alike R s s') {cx : W} {cx' : W'} (hcx : R.waker cx cx') :
    Both (Ends R) (s.pollFlush cx) (s'.pollFlush cx') := by
  unfold pollFlush
  refine .bind (drive_both h hcx .new) fun r r' hr => ?_
  cases hr with
  | @mk work budget s₁ s₁' h₁ =>
      have hfailure := failure_ends h₁
      dsimp only
      generalize s₁.failure = r at hfailure ⊢
      generalize s₁'.failure = r' at hfailure ⊢
      cases hfailure with
      | @mk error s₂ s₂' h₂ =>
          have hready : s₂'.flushReady = s₂.flushReady := by cases h₂; rfl
          cases error with
          | some error => exact .ret (.mk _ (h₂.finish _ _ _ _))
          | none =>
              dsimp only
              rw [hready]
              exact .ret (.mk _ (h₂.finish _ _ _ _))

theorem pollProgress_both (h : Alike R s s') {cx : W} {cx' : W'} (hcx : R.waker cx cx') :
    Both (Ends R) (s.pollProgress cx) (s'.pollProgress cx') := by
  unfold pollProgress
  refine .bind (drive_both h hcx .new) fun r r' hr => ?_
  cases hr with
  | @mk work budget s₁ s₁' h₁ =>
      have hfailure := failure_ends h₁
      dsimp only
      generalize s₁.failure = r at hfailure ⊢
      generalize s₁'.failure = r' at hfailure ⊢
      cases hfailure with
      | mk error h₂ => cases error <;> exact .ret (.mk _ (h₂.finish _ _ _ _))

theorem dispatch_both (h : Alike R s s') {call : Call W} {call' : Call W'}
    (hcall : Call.Alike R call call') : Both (Ends R) (s.dispatch call) (s'.dispatch call') := by
  cases hcall with
  | read buf hcx =>
      refine .bind (pollRead_both h hcx ⟨buf, rfl⟩) fun r r' hr => ?_
      cases hr with
      | mk poll buf h₁ => exact .ret (.mk _ h₁)
  | write buf hcx =>
      refine .bind (pollWrite_both h hcx buf) fun r r' hr => ?_
      cases hr with
      | mk poll h₁ => exact .ret (.mk _ h₁)
  | flush hcx =>
      refine .bind (pollFlush_both h hcx) fun r r' hr => ?_
      cases hr with
      | mk poll h₁ => exact .ret (.mk _ h₁)
  | progress hcx =>
      refine .bind (pollProgress_both h hcx) fun r r' hr => ?_
      cases hr with
      | mk poll h₁ => exact .ret (.mk _ h₁)
  | cancel operation =>
      refine .ret (.mk _ ?_)
      exact (h.woken_left (cancelPending_woken s operation)).woken_right
        (cancelPending_woken s' operation)

/-- In environments that give the same answers, a call returns the same. -/
theorem call_both (h : Alike R s s') {call : Call W} {call' : Call W'}
    (hcall : Call.Alike R call call') : Both (Ends R) (s.call call) (s'.call call') := by
  refine .bind (dispatch_both h hcall) fun r r' hr => ?_
  cases hr with
  | mk ret h₁ => exact .ret (.mk _ (h₁.log rfl rfl))

end Reliable

/-! ## What the calls of a transport keep -/

/-- A relation between a transport and the trace above it that every call of the transport keeps,
with the event that is recorded for it. -/
structure Watch {T W E : Type} [Transport T W E] (K : T → List (Event W E) → Prop) : Prop where
  read : ∀ {n : Nat} {t : T} {trace : List (Event W E)} (cx : W) (buf : Bytes n), K t trace →
    K (Transport.pollRead t cx buf).1
      (trace ++ [.pollRead cx n (Transport.pollRead t cx buf).2.2
        ((Transport.pollRead t cx buf).2.1.toList.take
          (readCount n (Transport.pollRead t cx buf).2.2))])
  write : ∀ {t : T} {trace : List (Event W E)} (cx : W) (frame : Frame) (pending : List UInt8),
    K t trace → K (Transport.pollWrite t cx pending).1
      (trace ++ [.pollWrite cx frame pending (Transport.pollWrite t cx pending).2])
  flush : ∀ {t : T} {trace : List (Event W E)} (cx : W) (frame : Frame), K t trace →
    K (Transport.pollFlush t cx).1
      (trace ++ [.pollFlush cx frame (Transport.pollFlush t cx).2])
  aside : ∀ {t : T} {trace : List (Event W E)} (event : Event W E), event.asks = false →
    K t trace → K t (trace ++ [event])

namespace Watch

variable {T C W E : Type} [Transport T W E] [Timer C W] {K : T → List (Event W E) → Prop}

/-- A connection in lockstep with itself, whose transport is watched. -/
def lockstep (h : Watch K) : Lockstep T C W T C W E where
  waker := Eq
  link t trace t' _ := t = t' ∧ K t trace
  clock := Eq
  read buf hlink hcx := by
    obtain ⟨rfl, hkept⟩ := hlink
    subst hcx
    exact ⟨rfl, rfl, h.read _ buf hkept⟩
  write frame pending hlink hcx := by
    obtain ⟨rfl, hkept⟩ := hlink
    subst hcx
    exact ⟨rfl, rfl, h.write _ frame pending hkept⟩
  flush frame hlink hcx := by
    obtain ⟨rfl, hkept⟩ := hlink
    subst hcx
    exact ⟨rfl, rfl, h.flush _ frame hkept⟩
  left event hevent hlink := ⟨hlink.1, h.aside event hevent hlink.2⟩
  right _ _ hlink := hlink
  now hclock := by
    subst hclock
    exact ⟨rfl, rfl⟩
  deadline _ hclock hcx := by
    subst hclock hcx
    exact ⟨rfl, rfl⟩

/-- What the calls of the transport keep is kept by the calls of the connection. -/
theorem call [Target] [Waker W] {N : Nat} (h : Watch K) {s s' : Reliable T C W E N}
    (hkept : K s.transport s.trace) {call : Call W} {ret : Return E}
    (hcall : s.call call = some (ret, s')) : K s'.transport s'.trace := by
  have hsame : Reliable.Alike h.lockstep s s := .mk _ _ _ _ ⟨rfl, hkept⟩ rfl
  have halike : Call.Alike (h.lockstep : Lockstep T C W T C W E) call call := by
    cases call with
    | read cx buf => exact .read buf rfl
    | write cx buf => exact .write buf rfl
    | flush cx => exact .flush rfl
    | progress cx => exact .progress rfl
    | cancel operation => exact .cancel operation
  have hboth := Reliable.call_both hsame halike
  rw [hcall] at hboth
  obtain ⟨r, hr, hends⟩ := hboth.returns
  cases hends with
  | mk ret hafter =>
      cases hafter with
      | mk transport timer waiters trace hlink hclock => exact hlink.2

end Watch

end CobsIoAsync.Connection
