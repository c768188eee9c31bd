import CobsIoAsync.Connection.History

/-!
# Connection.Accounts — what calls return and what the trace says

The bytes that `poll_write` accepts are the packets that were queued, and the bytes that
`poll_read` returns are the bytes that were delivered.
-/

namespace CobsIoAsync.Connection

open Reasoning Protocol

/-- Events that happen inside `drive`. -/
def Event.inner {W E : Type} : Event W E → Bool
  | .queued .. | .delivered .. | .returned .. | .wake .. | .exhausted => false
  | _ => true

/-- An event that is neither a transfer of bytes nor the return of a call. -/
def Event.Neutral {W E : Type} (event : Event W E) : Prop :=
  event.queued? = none ∧ event.deliveredBytes = [] ∧ event.written? = none ∧ event.readBytes = []

theorem Event.neutral_of_inner {W E : Type} {event : Event W E} (h : event.inner) :
    event.Neutral := by
  cases event <;> simp_all [Event.inner, Event.Neutral, Event.queued?, Event.deliveredBytes,
    Event.written?, Event.readBytes]

namespace Reliable

variable {T C W E : Type} {N : Nat} {s s' s'' : Reliable T C W E N}

/-- The trace grew by events that satisfy `P`. -/
def Adds (P : Event W E → Prop) (s s' : Reliable T C W E N) : Prop :=
  ∃ events, s'.trace = s.trace ++ events ∧ ∀ event ∈ events, P event

namespace Adds

variable {P Q : Event W E → Prop}

theorem of_eq (h : s'.trace = s.trace) : Adds P s s' := ⟨[], by simpa using h, by simp⟩

theorem of_snoc {event : Event W E} (h : s'.trace = s.trace ++ [event]) (hevent : P event) :
    Adds P s s' :=
  ⟨[event], h, by simpa using hevent⟩

theorem trans (h : Adds P s s') (h' : Adds P s' s'') : Adds P s s'' := by
  obtain ⟨events, htrace, hP⟩ := h
  obtain ⟨events', htrace', hP'⟩ := h'
  refine ⟨events ++ events', by rw [htrace', htrace, List.append_assoc], fun event hevent => ?_⟩
  exact (List.mem_append.mp hevent).elim (hP event) (hP' event)

theorem mono (h : Adds P s s') (himp : ∀ event, P event → Q event) : Adds Q s s' := by
  obtain ⟨events, htrace, hP⟩ := h
  exact ⟨events, htrace, fun event hevent => himp event (hP event hevent)⟩

theorem and (h : Adds P s s') (h' : Adds Q s s') : Adds (fun event => P event ∧ Q event) s s' := by
  obtain ⟨events, htrace, hP⟩ := h
  obtain ⟨events', htrace', hQ⟩ := h'
  obtain rfl : events' = events := List.append_cancel_left (htrace'.symm.trans htrace)
  exact ⟨events', htrace, fun event hevent => ⟨hP event hevent, hQ event hevent⟩⟩

end Adds

/-- What happens inside `drive` adds inner events and leaves the waiters, the configuration and
the health alone. -/
structure Inner (s s' : Reliable T C W E N) : Prop where
  adds : Adds (fun event => event.inner) s s'
  waiters : s'.waiters = s.waiters
  config : s'.config = s.config
  health : s'.health = s.health

section

variable [Target]

theorem Turn.inner (h : Turn s s') : Inner s s' := by
  cases h with
  | env => exact ⟨.of_eq rfl, rfl, rfl, rfl⟩
  | allow => exact ⟨.of_eq rfl, rfl, rfl, rfl⟩
  | requeue => exact ⟨.of_eq rfl, rfl, rfl, rfl⟩
  | acknowledgeAgain => exact ⟨.of_eq rfl, rfl, rfl, rfl⟩
  | note event hquiet =>
      refine ⟨.of_snoc rfl ?_, rfl, rfl, rfl⟩
      cases event <;> simp_all [Event.quiet, Event.inner]
  | _ => exact ⟨.of_snoc rfl rfl, rfl, rfl, rfl⟩

theorem Turns.inner (h : Turns s s') : Inner s s' := by
  induction h with
  | refl => exact ⟨.of_eq rfl, rfl, rfl, rfl⟩
  | tail _ hturn ih =>
      have hinner := hturn.inner
      exact ⟨ih.adds.trans hinner.adds, hinner.waiters.trans ih.waiters,
        hinner.config.trans ih.config, hinner.health.trans ih.health⟩

/-- The same for `drive`, which may also fail the connection. -/
theorem DriveLoop.adds (hinv : Inv s) {cx : W} {budget budget' : Budget} {work : Work}
    (h : DriveLoop cx s budget work budget' s') : Adds (fun event => event.inner) s s' := by
  obtain ⟨s₁, hturns, rfl | ⟨error, rfl⟩⟩ := h.turns hinv
  · exact hturns.inner.adds
  · exact hturns.inner.adds.trans (.of_eq (by rw [fail_eq]))

theorem Drive.adds (hinv : Inv s) {cx : W} {budget budget' : Budget} {work : Work}
    (h : Drive s cx budget work budget' s') : Adds (fun event => event.inner) s s' := by
  cases h with
  | stopped => exact .of_eq rfl
  | loop _ hloop => exact hloop.adds hinv

theorem Drive.waiters (hinv : Inv s) {cx : W} {budget budget' : Budget} {work : Work}
    (h : Drive s cx budget work budget' s') : s'.waiters = s.waiters := by
  obtain ⟨s₁, hturns, rfl | ⟨error, rfl⟩⟩ := h.turns hinv
  · exact hturns.inner.waiters
  · rw [fail_eq]
    exact hturns.inner.waiters

end

/-! ## The accounts -/

/-- The bytes queued and delivered by a call are those it accepts and returns. -/
structure Accounts (s : Reliable T C W E N) : Prop where
  written_eq : written s.trace = queued s.trace
  readOut_eq : readOut s.trace = delivered s.trace

theorem Adds.accounts (h : Adds Event.Neutral s s') :
    queued s'.trace = queued s.trace ∧ delivered s'.trace = delivered s.trace ∧
      written s'.trace = written s.trace ∧ readOut s'.trace = readOut s.trace := by
  obtain ⟨events, htrace, hneutral⟩ := h
  have hq : queued events = [] := List.filterMap_eq_nil_iff.mpr fun e he => (hneutral e he).1
  have hd : delivered events = [] := List.flatMap_eq_nil_iff.mpr fun e he => (hneutral e he).2.1
  have hw : written events = [] := List.filterMap_eq_nil_iff.mpr fun e he => (hneutral e he).2.2.1
  have hr : readOut events = [] := List.flatMap_eq_nil_iff.mpr fun e he => (hneutral e he).2.2.2
  simp [htrace, hq, hd, hw, hr]

theorem Accounts.of_neutral (h : Accounts s) (hadds : Adds Event.Neutral s s') : Accounts s' := by
  obtain ⟨hq, hd, hw, hr⟩ := hadds.accounts
  exact ⟨by rw [hq, hw, h.written_eq], by rw [hd, hr, h.readOut_eq]⟩

theorem Drive.neutral [Target] (hinv : Inv s) {cx : W} {budget budget' : Budget} {work : Work}
    (h : Drive s cx budget work budget' s') : Adds Event.Neutral s s' :=
  (h.adds hinv).mono fun _ => Event.neutral_of_inner

theorem Woken.neutral (h : Woken s s') : Adds Event.Neutral s s' := by
  obtain ⟨waiters, wakes, rfl, hwakes⟩ := h
  refine ⟨wakes, rfl, fun event hevent => ?_⟩
  obtain ⟨op, waker, rfl⟩ := hwakes event hevent
  exact ⟨rfl, rfl, rfl, rfl⟩

theorem exhaust_neutral (s : Reliable T C W E N) : Adds Event.Neutral s s.exhaust := by
  unfold exhaust
  split
  · rw [fail_eq]
    exact .of_snoc (show _ = s.trace ++ [.exhausted] from rfl) ⟨rfl, rfl, rfl, rfl⟩
  · exact .of_eq rfl

theorem failure_neutral {error : ConnectionError E} (h : s.failure = (some error, s')) :
    Adds Event.Neutral s s' := by
  obtain ⟨rfl, -⟩ := failure_eq_some h
  exact .of_eq rfl

/-- A call that transfers no bytes returns none. -/
theorem Accounts.of_return (h : Accounts s) (hadds : Adds Event.Neutral s s') {call : Call W}
    {ret : Return E} (hreturn : (Event.returned call ret).Neutral) :
    Accounts (s'.log (.returned call ret)) :=
  h.of_neutral (hadds.trans (.of_snoc rfl hreturn))

/-- A call that transfers bytes with one event returns the bytes of that event. -/
theorem Accounts.of_transfer (h : Accounts s) (hbefore : Adds Event.Neutral s s')
    {s₁ s₂ : Reliable T C W E N} {event : Event W E} (htrace : s₁.trace = s'.trace ++ [event])
    (hafter : Adds Event.Neutral s₁ s₂) {call : Call W} {ret : Return E}
    (hw : (Event.returned call ret).written? = event.queued?) (hw' : event.written? = none)
    (hr : (Event.returned call ret).readBytes = event.deliveredBytes) (hr' : event.readBytes = []) :
    Accounts (s₂.log (.returned call ret)) := by
  obtain ⟨hq₁, hd₁, hw₁, hr₁⟩ := hbefore.accounts
  obtain ⟨hq₂, hd₂, hw₂, hr₂⟩ := hafter.accounts
  constructor
  · simp [hw₂, hq₂, htrace, hw₁, hq₁, hw, hw', h.written_eq, Event.queued?]
  · simp [hr₂, hd₂, htrace, hr₁, hd₁, hr, hr', h.readOut_eq, Event.deliveredBytes]

variable [Target] [Waker W]

/-- A call keeps the accounts. -/
theorem Accounts.dispatch (hN : Fits N) (hinv : Inv s) (h : Accounts s) {call : Call W}
    {ret : Return E} (hcall : Dispatch s call ret s') : Accounts (s'.log (.returned call ret)) := by
  -- only a read that finds data and a write that is accepted move bytes across the interface
  cases hcall with
  | readEmpty => exact h.of_return (.of_eq rfl) ⟨rfl, rfl, rfl, rfl⟩
  | @readData cx buf bytes _ _ len s₁ hne hdrive hdata hlen hbytes =>
      have hend := (hinv.moves hN (hdrive.moves hinv)).rxEnd_le
      have hroom := hN.maxPayload_le
      have hlength : bytes.length = len := by
        rw [hbytes, List.length_drop, List.length_take, Bytes.length_toList]
        omega
      refine h.of_transfer (hdrive.neutral hinv) rfl (finish_woken _ _ _ _).neutral rfl rfl ?_ rfl
      simp only [Event.readBytes, Event.deliveredBytes]
      exact List.take_left' hlength
  | readError cx hne hdrive hdata hfailure =>
      exact h.of_return (((hdrive.neutral hinv).trans (failure_neutral hfailure)).trans
        (finish_woken _ _ _ _).neutral) ⟨rfl, rfl, rfl, rfl⟩
  | readPending cx hne hdrive =>
      exact h.of_return ((hdrive.neutral hinv).trans (finish_woken _ _ _ _).neutral)
        ⟨rfl, rfl, rfl, rfl⟩
  | writeEmpty => exact h.of_return (.of_eq rfl) ⟨rfl, rfl, by simp [Event.written?], rfl⟩
  | @write cx buf poll s₃ hne hqueue =>
      cases hqueue with
      | @failed _ _ s₁ s₂ error hdrive hfailure =>
          exact h.of_return ((((hdrive.neutral hinv).trans (exhaust_neutral s₁)).trans
            (failure_neutral hfailure)).trans (finish_woken _ _ _ _).neutral)
            ⟨rfl, rfl, rfl, rfl⟩
      | busy hdrive =>
          exact h.of_return ((hdrive.neutral hinv).trans (finish_woken _ _ _ _).neutral)
            ⟨rfl, rfl, rfl, rfl⟩
      | @accepted _ _ s₁ s₂ _ payload _ _ _ hdrive _ hready hnext hpayload hlen hframe hqueued
          hsecond =>
          have hinv₂ := (accepted_moves hN (hinv.moves hN (hdrive.moves hinv)) hne hready hnext
            hpayload hlen hframe hqueued).2
          have hafter : Adds Event.Neutral s₂ s₃ := by
            obtain ⟨-, rfl⟩ | ⟨-, work', budget', hdrive'⟩ := hsecond
            · exact .of_eq rfl
            · exact hdrive'.neutral hinv₂
          refine h.of_transfer (hdrive.neutral hinv) (by rw [hqueued]; rfl)
            (hafter.trans (finish_woken _ _ _ _).neutral) ?_ rfl rfl rfl
          simp only [Event.written?, Event.queued?, if_neg hne, hpayload]
          rw [List.length_take, ← List.take_eq_take_min]
  | flushError cx hdrive hfailure =>
      exact h.of_return (((hdrive.neutral hinv).trans (failure_neutral hfailure)).trans
        (finish_woken _ _ _ _).neutral) ⟨rfl, rfl, rfl, rfl⟩
  | flushReady cx hdrive =>
      exact h.of_return ((hdrive.neutral hinv).trans (finish_woken _ _ _ _).neutral)
        ⟨rfl, rfl, rfl, rfl⟩
  | flushPending cx hdrive =>
      exact h.of_return ((hdrive.neutral hinv).trans (finish_woken _ _ _ _).neutral)
        ⟨rfl, rfl, rfl, rfl⟩
  | progressError cx hdrive hfailure =>
      exact h.of_return (((hdrive.neutral hinv).trans (failure_neutral hfailure)).trans
        (finish_woken _ _ _ _).neutral) ⟨rfl, rfl, rfl, rfl⟩
  | progressPending cx hdrive =>
      exact h.of_return ((hdrive.neutral hinv).trans (finish_woken _ _ _ _).neutral)
        ⟨rfl, rfl, rfl, rfl⟩
  | cancel operation =>
      exact h.of_return (cancelPending_woken s operation).neutral ⟨rfl, rfl, rfl, rfl⟩

/-! ## Reachable states -/

section Runs

variable [Transport T W E] [Timer C W]

theorem Accounts.next (hsound : Sound s) (h : Accounts s) (hnext : Next s s') : Accounts s' := by
  cases hnext with
  | call hcall =>
      obtain ⟨s₁, hdispatch, rfl⟩ := hsound.dispatch hcall
      exact h.dispatch hsound.fits hsound.inv hdispatch
  | environment => exact ⟨h.1, h.2⟩

/-- A reachable state comes out of an initial one by moves, with the accounts kept. -/
theorem Reachable.origin (h : Reachable s) :
    ∃ transport timer config, Moves (initial N transport timer config) s := by
  obtain ⟨transport, timer, config, s₀, hnew, hrun⟩ := h
  obtain ⟨hN, rfl⟩ := new_eq_ok.mp hnew
  exact ⟨transport, timer, config, hrun.moves (Sound.initial hN transport timer config)⟩

theorem Reachable.history (h : Reachable s) : History s := by
  obtain ⟨transport, timer, config, hmoves⟩ := h.origin
  exact (history_initial transport timer config).moves h.sound.fits
    (inv_initial transport timer config) hmoves

theorem Reachable.accounts (h : Reachable s) : Accounts s := by
  apply h.keep
  · exact fun _ _ _ => ⟨rfl, rfl⟩
  · exact fun hsound haccounts hnext => haccounts.next hsound hnext

end Runs

end Reliable

end CobsIoAsync.Connection
