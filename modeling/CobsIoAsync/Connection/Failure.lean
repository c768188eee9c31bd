import CobsIoAsync.Connection.Waiting

/-!
# Connection.Failure — a connection fails once and for all

The first error stops the connection and is returned once; later errors are `Failed`.  A connection
that has failed asks nothing more of the transport and the timer, and still gives the bytes that
were not read.
-/

namespace CobsIoAsync.Connection

open Reasoning Protocol

variable {T C W E : Type} {N : Nat}

/-! ## Errors in a trace -/

/-- The error that an event stops the connection with. -/
def Event.cause? : Event W E → Option (ConnectionError E)
  | .pollRead _ _ (.ready (.error error)) _ => some (.transport error)
  | .pollRead _ _ (.ready (.ok 0)) _ => some .unexpectedEof
  | .pollWrite _ _ _ (.ready (.error error)) => some (.transport error)
  | .pollWrite _ _ _ (.ready (.ok 0)) => some .writeZero
  | .pollFlush _ _ (.ready (.error error)) => some (.transport error)
  | .timedOut => some .timeout
  | .exhausted => some .sequenceExhausted
  | _ => none

/-- What could have stopped the connection, in order. -/
def causes (trace : List (Event W E)) : List (ConnectionError E) := trace.filterMap Event.cause?

def Return.error? : Return E → Option (ConnectionError E)
  | .read (.ready (.error error)) _ | .write (.ready (.error error)) => some error
  | .flush (.ready (.error error)) | .progress (.ready error) => some error
  | _ => none

/-- The error that a call is owed once the connection has failed. -/
def Health.owed : Health E → ConnectionError E
  | .failed error => error
  | _ => .failed

def Event.error? : Event W E → Option (ConnectionError E)
  | .returned _ ret => ret.error?
  | _ => none

/-- The errors that calls returned. -/
def errors (trace : List (Event W E)) : List (ConnectionError E) := trace.filterMap Event.error?

/-- A call of the transport or the timer. -/
def Event.external : Event W E → Bool
  | .pollRead .. | .pollWrite .. | .pollFlush .. | .now _ | .pollDeadline .. => true
  | _ => false

/-- Events that neither stop the connection nor report that it stopped. -/
def Event.Blameless (event : Event W E) : Prop := event.cause? = none ∧ event.error? = none

section Append

variable (t u : List (Event W E)) (e : Event W E)

@[simp] theorem causes_append : causes (t ++ u) = causes t ++ causes u := List.filterMap_append
@[simp] theorem errors_append : errors (t ++ u) = errors t ++ errors u := List.filterMap_append

@[simp] theorem causes_nil : causes ([] : List (Event W E)) = [] := rfl
@[simp] theorem errors_nil : errors ([] : List (Event W E)) = [] := rfl

@[simp] theorem causes_cons : causes (e :: t) = e.cause?.toList ++ causes t := by
  cases h : e.cause? <;> simp [causes, h]
@[simp] theorem errors_cons : errors (e :: t) = e.error?.toList ++ errors t := by
  cases h : e.error? <;> simp [errors, h]

end Append

/-- The connection never stops with the error that it returns later on. -/
theorem ne_failed_of_mem_causes {trace : List (Event W E)} {error : ConnectionError E}
    (h : error ∈ causes trace) : error ≠ .failed := by
  obtain ⟨event, -, hcause⟩ := List.mem_filterMap.mp h
  rintro rfl
  unfold Event.cause? at hcause
  split at hcause <;> cases hcause

namespace Reliable

variable {s s' s'' s₁ : Reliable T C W E N}

theorem Adds.blame (h : Adds Event.Blameless s s') :
    causes s'.trace = causes s.trace ∧ errors s'.trace = errors s.trace := by
  obtain ⟨events, htrace, hnone⟩ := h
  have hc : causes events = [] := List.filterMap_eq_nil_iff.mpr fun e he => (hnone e he).1
  have he : errors events = [] := List.filterMap_eq_nil_iff.mpr fun e he => (hnone e he).2
  simp [htrace, hc, he]

/-! ## What stops a drive -/

/-- The error of an outcome. -/
def failed? : Outcome E → Option (ConnectionError E)
  | .error error => some error
  | .ok _ => none

theorem Start.causes (h : Start s s') : causes s'.trace = causes s.trace := by
  cases h <;> simp [Event.cause?]

theorem Output.causes {cx : W} {budget budget' : Budget} {work : Outcome E}
    (h : Output s cx budget work budget' s') :
    causes s'.trace = causes s.trace ++ (failed? work).toList := by
  cases h with
  | nothing => simp [failed?]
  | starved hstart => simp [hstart.causes, failed?]
  | write hstart _ _ hwrite =>
      rw [← hstart.causes]
      cases hwrite with
      | written transport written hwritten =>
          obtain ⟨n, rfl⟩ := Nat.exists_eq_succ_of_ne_zero hwritten
          simp [Event.cause?, failed?]
      | _ => simp [Event.cause?, failed?]
  | flush hstart _ _ hflush =>
      rw [← hstart.causes]
      cases hflush <;> simp [Event.cause?, failed?]

section

variable [Target]

theorem ProcessInput.causes (h : ProcessInput s s') : causes s'.trace = causes s.trace := by
  refine (Adds.blame (h.adds.mono fun event hevent => ?_)).1
  cases event <;> simp_all [Event.input, Event.Blameless, Event.cause?, Event.error?]

theorem Input.causes {cx : W} {budget budget' : Budget} {work : Outcome E}
    (h : Input s cx budget work budget' s') :
    causes s'.trace = causes s.trace ++ (failed? work).toList := by
  cases h with
  | read transport rxBuf count bytes _ hcount _ _ hprocess =>
      obtain ⟨n, rfl⟩ := Nat.exists_eq_succ_of_ne_zero hcount
      rw [hprocess.causes]
      simp [Event.cause?, failed?]
  | _ => simp [Event.cause?, failed?]

omit [Target] in
theorem Timed.causes {cx : W} {input : Work} {work : Outcome E} (h : Timed s cx input work s') :
    causes s'.trace = causes s.trace ++ (failed? work).toList := by
  cases h <;> simp [Event.cause?, failed?]

/-- A step fails with the error that occurred in it. -/
theorem Step.causes {cx : W} {budget budget' : Budget} {work : Outcome E}
    (h : Step s cx budget work budget' s') :
    causes s'.trace = causes s.trace ++ (failed? work).toList := by
  cases h with
  | output houtput => exact houtput.causes
  | input houtput hinput => simp [hinput.causes, houtput.causes, failed?]
  | timer houtput hinput htimer => simp [htimer.causes, hinput.causes, houtput.causes, failed?]
  | done houtput hinput htimer => simp [htimer.causes, hinput.causes, houtput.causes, failed?]

/-- A drive goes on, or fails with the error that occurred in it. -/
theorem DriveLoop.causes (hinv : Inv s) (hhealth : s.health = .ok) {cx : W}
    {budget budget' : Budget} {work : Work} (h : DriveLoop cx s budget work budget' s') :
    s'.health = .ok ∧ causes s'.trace = causes s.trace ∨
      ∃ error, s'.health = .failed error ∧ causes s'.trace = causes s.trace ++ [error] := by
  have hstart : ∀ {s : Reliable T C W E N}, Inv s → Inv (s.log .step) := fun {s} hinv =>
    hinv.turn (.note s _ rfl)
  have hkeep : ∀ {s s₁ : Reliable T C W E N} {budget budget₁ : Budget} {work : Outcome E}, Inv s →
      Step (s.log .step) cx budget work budget₁ s₁ → Inv s₁ ∧ s₁.health = s.health ∧
        Connection.causes s₁.trace = Connection.causes s.trace ++ (failed? work).toList := by
    intro s s₁ budget budget₁ work hinv hstep
    have hturns := hstep.turns (hstart hinv)
    exact ⟨(hstart hinv).turns hturns, hturns.inner.health,
      hstep.causes.trans (by simp [Event.cause?])⟩
  -- Only the step that ends the loop with an error records a cause, and that step fails the state.
  induction h with
  | @progress s s₁ _ _ _ _ _ hstep _ ih =>
      obtain ⟨hinv₁, hhealth₁, hcauses⟩ := hkeep hinv hstep
      have hloop := ih (hinv₁.turn (.note s₁ _ rfl)) (hhealth₁.trans hhealth)
      simpa [Event.cause?, hcauses, failed?] using hloop
  | blocked hstep =>
      obtain ⟨-, hhealth₁, hcauses⟩ := hkeep hinv hstep
      exact .inl ⟨hhealth₁.trans hhealth, by simp [hcauses, Event.cause?, failed?]⟩
  | yield hstep =>
      obtain ⟨-, hhealth₁, hcauses⟩ := hkeep hinv hstep
      exact .inl ⟨hhealth₁.trans hhealth, by simp [hcauses, Event.cause?, failed?]⟩
  | @error _ _ _ _ error hstep =>
      obtain ⟨-, hhealth₁, hcauses⟩ := hkeep hinv hstep
      refine .inr ⟨error, ?_, ?_⟩
      · simp [fail_eq, hhealth₁, hhealth]
      · simp [fail_eq, hcauses, Event.cause?, failed?]

theorem Drive.stopped_eq (h : s.health ≠ .ok) {cx : W} {budget budget' : Budget} {work : Work}
    (hdrive : Drive s cx budget work budget' s') : s = s' := by
  cases hdrive with
  | stopped => rfl
  | loop hhealth => exact absurd hhealth h

end

/-! ## What is known of a failure -/

/-- The first of the causes stops the connection, and is the first error that is returned; the
others are `Failed`. -/
inductive Failures : Health E → List (ConnectionError E) → List (ConnectionError E) → Prop
  | ok : Failures .ok [] []
  | failed {error : ConnectionError E} (later : List (ConnectionError E)) (hne : error ≠ .failed) :
      Failures (.failed error) (error :: later) []
  | reported {error : ConnectionError E} (later : List (ConnectionError E)) (n : Nat)
      (hne : error ≠ .failed) :
      Failures .reported (error :: later) (error :: List.replicate n .failed)

/-- The first reason stops the connection, and a later one changes nothing. -/
theorem Failures.stop {health health' : Health E} {error : ConnectionError E}
    (hhealth : health' = match health with | .ok => .failed error | health => health)
    (hne : error ≠ .failed) {causes errors : List (ConnectionError E)}
    (h : Failures health causes errors) : Failures health' (causes ++ [error]) errors := by
  subst hhealth
  cases h with
  | ok => exact .failed [] hne
  | failed later hne' => exact .failed (later ++ [error]) hne'
  | reported later n hne' => exact .reported (later ++ [error]) n hne'

/-- The error that is owed is returned. -/
theorem Failures.report {health : Health E} {causes errors : List (ConnectionError E)}
    (h : Failures health causes errors) (hhealth : health ≠ .ok) :
    Failures .reported causes (errors ++ [health.owed]) := by
  cases h with
  | ok => exact absurd rfl hhealth
  | failed later hne => exact .reported later 0 hne
  | reported later n hne =>
      have := Failures.reported later (n + 1) hne
      rwa [List.replicate_succ', ← List.cons_append] at this

/-- An error that is returned occurred before. -/
theorem Failures.mem_causes {health : Health E} {error : ConnectionError E}
    {causes errors : List (ConnectionError E)} (h : Failures health causes errors)
    (hmem : error ∈ errors) (hne : error ≠ .failed) : error ∈ causes := by
  cases h with
  | ok => cases hmem
  | failed => cases hmem
  | reported later n =>
      rcases List.mem_cons.mp hmem with rfl | hlater
      · exact .head later
      · exact absurd (List.eq_of_mem_replicate hlater) hne

theorem Failures.errors_of_ok {causes errors : List (ConnectionError E)}
    (h : Failures .ok causes errors) : errors = [] := by
  cases h
  rfl

theorem Failures.of_failed {error : ConnectionError E} {causes errors : List (ConnectionError E)}
    (h : Failures (.failed error) causes errors) : causes.head? = some error ∧ errors = [] := by
  cases h
  exact ⟨rfl, rfl⟩

theorem Failures.of_reported {causes errors : List (ConnectionError E)}
    (h : Failures .reported causes errors) :
    ∃ error, causes.head? = some error ∧ errors.head? = some error := by
  cases h with
  | reported later n hne => exact ⟨_, rfl, rfl⟩

/-- The failures of a connection. -/
def Blame (s : Reliable T C W E N) : Prop := Failures s.health (causes s.trace) (errors s.trace)

theorem failure_owed {error : ConnectionError E} (h : s.failure = (some error, s')) :
    s.health ≠ .ok ∧ error = s.health.owed ∧ s' = { s with health := .reported } := by
  obtain ⟨heq, hfailed | ⟨hreported, rfl⟩⟩ := failure_eq_some h
  · exact ⟨by simp [hfailed], by simp [hfailed, Health.owed], heq⟩
  · exact ⟨by simp [hreported], by simp [hreported, Health.owed], heq⟩

namespace Blame

/-- What adds no cause and no error leaves the account as it is. -/
theorem same (h : Blame s) (hhealth : s'.health = s.health) (hadds : Adds Event.Blameless s s') :
    Blame s' := by
  obtain ⟨hcauses, herrors⟩ := hadds.blame
  rwa [Blame, hhealth, hcauses, herrors]

/-- A call that returns no error. -/
theorem returned (h : Blame s) (hwoken : Woken s s') (call : Call W) {ret : Return E}
    (hret : ret.error? = none) : Blame (s'.log (.returned call ret)) := by
  obtain ⟨waiters, wakes, rfl, hwakes⟩ := hwoken
  refine h.same rfl ⟨wakes ++ [Event.returned call ret], by simp, fun event hevent => ?_⟩
  obtain hwake | hreturned := List.mem_append.mp hevent
  · obtain ⟨op, waker, rfl⟩ := hwakes event hwake
    exact ⟨rfl, rfl⟩
  · obtain rfl := List.mem_singleton.mp hreturned
    exact ⟨rfl, hret⟩

/-- A call that returns the error that is owed. -/
theorem reported (h : Blame s) {error : ConnectionError E} (hfailure : s.failure = (some error, s₁))
    (hwoken : Woken s₁ s') (call : Call W) {ret : Return E} (hret : ret.error? = some error) :
    Blame (s'.log (.returned call ret)) := by
  obtain ⟨waiters, wakes, rfl, hwakes⟩ := hwoken
  obtain ⟨hhealth, rfl, rfl⟩ := failure_owed hfailure
  have hnone : Connection.causes wakes = [] ∧ Connection.errors wakes = [] := by
    constructor <;> refine List.filterMap_eq_nil_iff.mpr fun event hevent => ?_ <;>
      obtain ⟨op, waker, rfl⟩ := hwakes event hevent <;> rfl
  have hreport := Failures.report h hhealth
  simpa [Blame, hnone, Event.cause?, Event.error?, hret] using hreport

end Blame

theorem Drive.blame [Target] (hinv : Inv s) (h : Blame s) {cx : W} {budget budget' : Budget}
    {work : Work}
    (hdrive : Drive s cx budget work budget' s') : Blame s' := by
  have herrors : errors s'.trace = errors s.trace := by
    obtain ⟨events, htrace, hinner⟩ := hdrive.adds hinv
    have hnone : errors events = [] := List.filterMap_eq_nil_iff.mpr fun event hevent => by
      have := hinner event hevent
      cases event <;> simp_all [Event.inner, Event.error?]
    simp [htrace, hnone]
  cases hdrive with
  | stopped => exact h
  | loop hhealth hloop =>
      obtain ⟨hhealth', hcauses⟩ | ⟨error, hhealth', hcauses⟩ := hloop.causes hinv hhealth
      · rwa [Blame, hhealth', hcauses, herrors, ← hhealth]
      · rw [Blame, hcauses, herrors]
        have hmem : error ∈ causes s'.trace := by simp [hcauses]
        exact Failures.stop (by rw [hhealth, hhealth']) (ne_failed_of_mem_causes hmem) h

theorem exhaust_blame (h : Blame s) : Blame s.exhaust := by
  unfold exhaust
  split
  · have hne : ConnectionError.sequenceExhausted ≠ (.failed : ConnectionError E) := by simp
    have hstop := Failures.stop rfl hne h
    have hcauses : causes (s.log .exhausted).trace =
        causes s.trace ++ [ConnectionError.sequenceExhausted] := by
      simp [Event.cause?]
    have herrors : errors (s.log .exhausted).trace = errors s.trace := by simp [Event.error?]
    rw [fail_eq, Blame, hcauses, herrors]
    exact hstop
  · exact h

theorem QueuePacket.blame [Target] (hN : Fits N) (hinv : Inv s) (h : Blame s) {cx : W}
    {buf : List UInt8}
    (hne : buf ≠ []) {poll : Poll (Except (ConnectionError E) Nat)}
    (hqueue : QueuePacket s cx buf poll s') (hwoken : Woken s' s'') :
    Blame (s''.log (.returned (.write cx buf) (.write poll))) := by
  cases hqueue with
  | failed hdrive hfailure =>
      exact (exhaust_blame (hdrive.blame hinv h)).reported hfailure hwoken _ rfl
  | busy hdrive => exact (hdrive.blame hinv h).returned hwoken _ rfl
  | @accepted _ _ s₁ s₂ _ payload _ _ _ hdrive _ hready hnext hpayload hlen hframe hqueued hsecond =>
      have hinv₂ := (accepted_moves hN (hinv.moves hN (hdrive.moves hinv)) hne hready hnext
        hpayload hlen hframe hqueued).2
      have hpacket : Blame s₂ := by
        rw [hqueued]
        exact (hdrive.blame hinv h).same rfl (.of_snoc rfl ⟨rfl, rfl⟩)
      refine Blame.returned ?_ hwoken _ rfl
      obtain ⟨-, rfl⟩ | ⟨-, work', budget', hdrive'⟩ := hsecond
      · exact hpacket
      · exact hdrive'.blame hinv₂ hpacket

/-- A call returns no error before the connection fails, then the cause, then `Failed`. -/
theorem Dispatch.blame [Target] [Waker W] (hN : Fits N) (hinv : Inv s) (h : Blame s)
    {call : Call W} {ret : Return E}
    (hcall : Dispatch s call ret s') : Blame (s'.log (.returned call ret)) := by
  cases hcall with
  | readEmpty => exact h.same rfl (.of_snoc rfl ⟨rfl, rfl⟩)
  | readData cx hne hdrive =>
      refine Blame.returned ?_ (finish_woken _ _ _ _) _ rfl
      exact (hdrive.blame hinv h).same rfl (.of_snoc rfl ⟨rfl, rfl⟩)
  | readError cx hne hdrive hdata hfailure =>
      exact (hdrive.blame hinv h).reported hfailure (finish_woken _ _ _ _) _ rfl
  | readPending cx hne hdrive =>
      exact (hdrive.blame hinv h).returned (finish_woken _ _ _ _) _ rfl
  | writeEmpty => exact h.same rfl (.of_snoc rfl ⟨rfl, rfl⟩)
  | write cx hne hqueue => exact hqueue.blame hN hinv h hne (finish_woken _ _ _ _)
  | flushError cx hdrive hfailure =>
      exact (hdrive.blame hinv h).reported hfailure (finish_woken _ _ _ _) _ rfl
  | flushReady cx hdrive => exact (hdrive.blame hinv h).returned (finish_woken _ _ _ _) _ rfl
  | flushPending cx hdrive => exact (hdrive.blame hinv h).returned (finish_woken _ _ _ _) _ rfl
  | progressError cx hdrive hfailure =>
      exact (hdrive.blame hinv h).reported hfailure (finish_woken _ _ _ _) _ rfl
  | progressPending cx hdrive => exact (hdrive.blame hinv h).returned (finish_woken _ _ _ _) _ rfl
  | cancel operation => exact h.returned (cancelPending_woken s operation) _ rfl

/-! ## The call in which the connection fails -/

/-- A call reports an error with its return only. -/
theorem Dispatch.errors [Target] [Waker W] (hN : Fits N) (hinv : Inv s) {call : Call W}
    {ret : Return E}
    (hcall : Dispatch s call ret s') : errors s'.trace = errors s.trace := by
  have hbefore : ∀ {s₁ s₂ : Reliable T C W E N}, Undisturbed s₁ s₂ →
      Connection.errors s₂.trace = Connection.errors s₁.trace := by
    intro s₁ s₂ h
    obtain ⟨events, htrace, hduring⟩ := h.adds
    have hnone : Connection.errors events = [] :=
      List.filterMap_eq_nil_iff.mpr fun event hevent => by
        have := hduring event hevent
        cases event <;> simp_all [Event.during, Event.error?]
    simp [htrace, hnone]
  have hwoken : ∀ {s₁ s₂ : Reliable T C W E N}, Woken s₁ s₂ →
      Connection.errors s₂.trace = Connection.errors s₁.trace := by
    rintro s₁ s₂ ⟨waiters, wakes, rfl, hwakes⟩
    have hnone : Connection.errors wakes = [] :=
      List.filterMap_eq_nil_iff.mpr fun event hevent => by
        obtain ⟨op, waker, rfl⟩ := hwakes event hevent
        rfl
    simp [hnone]
  -- The error a call reports is recorded after the dispatch, when it returns.
  cases hret : ret.isPending with
  | false =>
      obtain ⟨-, rfl⟩ | ⟨s₁, hdisturbed, rfl⟩ := hcall.completed hN hinv hret
      · rfl
      · exact (hwoken (wakeWhere_woken _ s₁ _)).trans (hbefore hdisturbed)
  | true =>
      obtain ⟨cx, work, budget, s₁, -, hdrive, -, -, rfl⟩ := hcall.pending hret
      exact (hwoken (finish_woken s₁ _ _ _)).trans (hbefore (hdrive.undisturbed hinv))

/-- A call in which the connection fails returns the error, or what it already has: bytes that
were received, or the length of a packet that was accepted. -/
inductive Fails (s : Reliable T C W E N) (call : Call W) (ret : Return E)
    (s' : Reliable T C W E N) : Prop
  | reports {error : ConnectionError E} (hcause : (causes s'.trace).head? = some error)
      (hret : ret.error? = some error) (hhealth : s'.health = .reported) : Fails s call ret s'
  | reads {error : ConnectionError E} {len : Nat} {buf : List UInt8}
      (hcause : (causes s'.trace).head? = some error)
      (hret : ret = .read (.ready (.ok len)) buf) (hlen : 0 < len)
      (hhealth : s'.health = .failed error) : Fails s call ret s'
  | writes {error : ConnectionError E} {payload : List UInt8}
      (hcause : (causes s'.trace).head? = some error)
      (hret : ret = .write (.ready (.ok payload.length)))
      (hqueued : queued s'.trace = queued s.trace ++ [payload])
      (hhealth : s'.health = .failed error) : Fails s call ret s'

/-- A call that returns no error although the connection has failed. -/
theorem Dispatch.fails [Target] [Waker W] (hN : Fits N) (hinv : Inv s) {call : Call W}
    {ret : Return E}
    (hcall : Dispatch s call ret s') (hhealth : s.health = .ok) (hfailed : s'.health ≠ .ok)
    (hret : ret.error? = none) :
    (∃ len buf, ret = .read (.ready (.ok len)) buf ∧ 0 < len) ∨
      ∃ payload : List UInt8, ret = .write (.ready (.ok payload.length)) ∧
        queued s'.trace = queued s.trace ++ [payload] := by
  have hfinish : ∀ {R : Type} (s : Reliable T C W E N) (op : Op) (cx : W) (poll : Poll R),
      (s.finish op cx poll).health = s.health := by
    intro R s op cx poll
    obtain ⟨waiters, wakes, heq, -⟩ := finish_woken s op cx poll
    rw [heq]
  cases hcall with
  | readEmpty => exact absurd hhealth hfailed
  | readData cx hne hdrive hdata hlen =>
      -- A read answers with the bytes it has, though the drive before it failed.
      refine .inl ⟨_, _, rfl, ?_⟩
      have hpos := List.length_pos_iff.mpr hne
      omega
  | readError => cases hret
  | readPending cx hne hdrive hdata hhealth₁ => exact absurd ((hfinish _ _ _ _).trans hhealth₁) hfailed
  | writeEmpty => exact absurd hhealth hfailed
  | @write cx buf poll s₃ hne hqueue =>
      cases hqueue with
      | failed => cases hret
      | busy hdrive hhealth₁ => exact absurd ((hfinish _ _ _ _).trans hhealth₁) hfailed
      | @accepted _ _ s₁ s₂ _ payload _ _ _ hdrive _ hready hnext hpayload hlen hframe hqueued
          hsecond =>
          -- A write is accepted before the second drive, so its failure is not yet reported.
          have hinv₂ := (accepted_moves hN (hinv.moves hN (hdrive.moves hinv)) hne hready hnext
            hpayload hlen hframe hqueued).2
          have hpacket : queued s₂.trace = queued s.trace ++ [payload] := by
            rw [hqueued]
            simp [(hdrive.neutral hinv).accounts.1, Event.queued?]
          refine .inr ⟨payload, rfl, ?_⟩
          rw [(finish_woken s₃ .write cx _).neutral.accounts.1, ← hpacket]
          obtain ⟨-, rfl⟩ | ⟨-, work', budget', hdrive'⟩ := hsecond
          · rfl
          · exact (hdrive'.neutral hinv₂).accounts.1
  | flushError => cases hret
  | flushReady cx hdrive hhealth₁ => exact absurd ((hfinish _ _ _ _).trans hhealth₁) hfailed
  | flushPending cx hdrive hhealth₁ => exact absurd ((hfinish _ _ _ _).trans hhealth₁) hfailed
  | progressError => cases hret
  | progressPending cx hdrive hhealth₁ => exact absurd ((hfinish _ _ _ _).trans hhealth₁) hfailed
  | cancel operation =>
      obtain ⟨waiters, wakes, heq, -⟩ := cancelPending_woken s operation
      exact absurd (by rw [heq]; exact hhealth) hfailed

/-! ## After the failure -/

/-- Nothing is asked of the transport and the timer, and only the health, the waiters and the
start of the unread bytes change. -/
structure Stopped (s s' : Reliable T C W E N) : Prop where
  health : s'.health ≠ .ok
  adds : Adds (fun event => !event.external) s s'
  unread : readOut s'.trace ++ s'.unread = readOut s.trace ++ s.unread
  rest : ∃ transport timer, s' = { s with
    transport, timer
    health := s'.health, rxStart := s'.rxStart, waiters := s'.waiters, trace := s'.trace }

/-- What a call of a failed connection returns. -/
def lateReturn (s : Reliable T C W E N) : Call W → Return E
  | .read _ buf =>
    if buf = [] then .read (.ready (.ok 0)) []
    else if s.unread = [] then .read (.ready (.error s.health.owed)) buf
    else .read (.ready (.ok (min buf.length s.unread.length)))
      (s.unread.take buf.length ++ buf.drop s.unread.length)
  | .write _ buf =>
    if buf = [] then .write (.ready (.ok 0)) else .write (.ready (.error s.health.owed))
  | .flush _ => .flush (.ready (.error s.health.owed))
  | .progress _ => .progress (.ready s.health.owed)
  | .cancel _ => .cancelled

/-- A call of a failed connection. -/
structure Late (s : Reliable T C W E N) (call : Call W) (ret : Return E)
    (s' : Reliable T C W E N) : Prop where
  stopped : Stopped s s'
  returns : ret = s.lateReturn call
  transport : s'.transport = s.transport
  timer : s'.timer = s.timer
  health : s'.health = if ret.error?.isSome then .reported else s.health

namespace Stopped

theorem refl (h : s.health ≠ .ok) : Stopped s s := ⟨h, .of_eq rfl, rfl, s.transport, s.timer, rfl⟩

theorem trans (h : Stopped s s') (h' : Stopped s' s'') : Stopped s s'' := by
  obtain ⟨transport, timer, heq⟩ := h.rest
  obtain ⟨transport', timer', heq'⟩ := h'.rest
  exact ⟨h'.health, h.adds.trans h'.adds, h'.unread.trans h.unread, transport', timer',
    heq'.trans (by rw [heq])⟩

/-- An event that asks nothing and returns no bytes. -/
theorem log (h : Stopped s s') (event : Event W E) (hexternal : event.external = false)
    (hread : event.readBytes = []) : Stopped s (s'.log event) :=
  h.trans ⟨h.health, .of_snoc rfl (by simp [hexternal]), by simp [hread, Reliable.unread],
    s'.transport, s'.timer, rfl⟩

theorem report (h : Stopped s s') {error : ConnectionError E}
    (hfailure : s'.failure = (some error, s'')) : Stopped s s'' := by
  obtain ⟨-, -, rfl⟩ := failure_owed hfailure
  exact h.trans ⟨by simp, .of_eq rfl, rfl, s'.transport, s'.timer, rfl⟩

theorem woken (h : Stopped s s') (hwoken : Woken s' s'') : Stopped s s'' := by
  have hreadOut := hwoken.neutral.accounts.2.2.2
  obtain ⟨waiters, wakes, rfl, hwakes⟩ := hwoken
  refine h.trans ⟨h.health, ⟨wakes, rfl, fun event hevent => ?_⟩, ?_, s'.transport, s'.timer, rfl⟩
  · obtain ⟨op, waker, rfl⟩ := hwakes event hevent
    rfl
  · rw [hreadOut]
    rfl

end Stopped

/-- The sequence numbers cannot stop a connection that has stopped. -/
theorem exhaust_stopped [Target] (hinv : Inv s) (h : s.health ≠ .ok) :
    s.exhaust = s ∨ s.exhaust = s.log .exhausted := by
  unfold exhaust
  split
  · rename_i hexhausted
    have htx : s.tx = .idle := (writeReady_iff.mp (by simp_all)).1
    have hfinal : s.finalInput = none := by
      by_contra hsome
      have := hinv.waiting_of_final (Option.isSome_iff_ne_none.mpr hsome)
      rw [htx] at this
      cases this
    right
    rw [fail_eq, log, ← hfinal]
    cases hhealth : s.health with
    | ok => exact absurd hhealth h
    | failed error => simp
    | reported => simp
  · exact .inl rfl

theorem length_unread [Target] (hN : Fits N)
    (hinv : Inv s) : s.unread.length = s.rxEnd - s.rxStart := by
  have hend := hinv.rxEnd_le
  have hroom := hN.maxPayload_le
  rw [unread, List.length_drop, List.length_take, Bytes.length_toList]
  omega

/-- The bytes from the start of the unread ones on. -/
theorem take_unread {len : Nat} (h : s.rxStart + len ≤ s.rxEnd) :
    (s.rxPayload.toList.take (s.rxStart + len)).drop s.rxStart = s.unread.take len := by
  rw [unread, List.drop_take, List.drop_take, List.take_take]
  congr 1
  omega

/-- A failed connection reports its error. -/
theorem Late.of_failure (hstopped : Stopped s s₁) (hhealth : s₁.health = s.health)
    (htransport : s₁.transport = s.transport) (htimer : s₁.timer = s.timer)
    {error : ConnectionError E} (hfailure : s₁.failure = (some error, s'))
    (hwoken : Woken s' s'') {call : Call W} {ret : Return E} (hret : ret.error? = some error)
    (hread : (Event.returned call ret).readBytes = [])
    (hlate : error = s.health.owed → ret = s.lateReturn call) :
    Late s call ret (s''.log (.returned call ret)) := by
  have hafter := ((hstopped.report hfailure).woken hwoken).log (.returned call ret) rfl hread
  obtain ⟨-, herror, rfl⟩ := failure_owed hfailure
  obtain ⟨waiters, wakes, rfl, -⟩ := hwoken
  exact ⟨hafter, hlate (hhealth ▸ herror), htransport, htimer, by simp [hret]⟩

/-- A failed connection gives the bytes that were not read. -/
theorem Late.of_data (h : s.health ≠ .ok) {cx : W} {buf bytes : List UInt8} {len : Nat}
    (hne : buf ≠ []) (hdata : 0 < s.unread.length) (hlen : len = min buf.length s.unread.length)
    (hbytes : bytes = s.unread.take len)
    (hwoken : Woken ({ s with rxStart := s.rxStart + len }.log (.delivered bytes)) s')
    {ret : Return E} (hret : ret = .read (.ready (.ok len)) (bytes ++ buf.drop len)) :
    Late s (.read cx buf) ret (s'.log (.returned (.read cx buf) ret)) := by
  have hreadOut := hwoken.neutral.accounts.2.2.2
  have hlength : bytes.length = len := by
    rw [hbytes, List.length_take]
    omega
  -- The rest of the caller's buffer is left as it was.
  have hdropped : ({ s with rxStart := s.rxStart + len } : Reliable T C W E N).unread =
      s.unread.drop len := by
    simp only [unread, List.drop_drop]
  obtain ⟨waiters, wakes, rfl, hwakes⟩ := hwoken
  refine ⟨⟨h, ⟨.delivered bytes :: (wakes ++ [.returned (.read cx buf) ret]), by simp, ?_⟩, ?_,
    s.transport, s.timer, rfl⟩, ?_, rfl, rfl, by simp [hret, Return.error?]⟩
  · refine List.forall_mem_cons.mpr ⟨rfl, List.forall_mem_append.mpr ⟨fun event hevent => ?_,
      List.forall_mem_singleton.mpr rfl⟩⟩
    obtain ⟨op, waker, rfl⟩ := hwakes event hevent
    rfl
  · have hbefore : readOut (s.trace ++ [.delivered bytes] ++ wakes) = readOut s.trace := by
      simpa [Event.readBytes] using hreadOut
    have hread : (Event.returned (.read cx buf) ret).readBytes = bytes := by
      rw [hret]
      exact List.take_left' hlength
    have hsplit : bytes ++ s.unread.drop len = s.unread := by rw [hbytes, List.take_append_drop]
    calc readOut (s.trace ++ [.delivered bytes] ++ wakes ++ [.returned (.read cx buf) ret]) ++ _
        = readOut s.trace ++ bytes ++ s.unread.drop len := by
          rw [readOut_append, hbefore, readOut_singleton, hread]
          exact congrArg _ hdropped
      _ = readOut s.trace ++ s.unread := by rw [List.append_assoc, hsplit]
  · have hunread : s.unread ≠ [] := List.length_pos_iff.mp hdata
    have hdrop : buf.drop len = buf.drop s.unread.length := by
      rcases le_total buf.length s.unread.length with hle | hle
      · rw [hlen, Nat.min_eq_left hle, List.drop_length, List.drop_of_length_le hle]
      · rw [hlen, Nat.min_eq_right hle]
    rw [hret, lateReturn, if_neg hne, if_neg hunread, hbytes, hdrop, hlen, ← List.take_eq_take_min]

variable [Target] [Waker W]

/-- A call that finds the connection failed. -/
theorem Dispatch.late (hN : Fits N) (hinv : Inv s) (h : s.health ≠ .ok) {call : Call W}
    {ret : Return E} (hcall : Dispatch s call ret s') :
    Late s call ret (s'.log (.returned call ret)) := by
  have hrefl := Stopped.refl h
  have hlength := length_unread hN hinv
  cases hcall with
  | readEmpty =>
      exact ⟨hrefl.log _ rfl (by simp [Event.readBytes]), by simp [lateReturn], rfl, rfl, rfl⟩
  | @readData cx buf bytes _ _ len s₁ hne hdrive hdata hlen hbytes =>
      obtain rfl := hdrive.stopped_eq h
      refine .of_data h hne (by omega) (by rw [hlen, hlength]) ?_ (finish_woken _ _ _ _) rfl
      exact hbytes.trans (take_unread (by omega))
  | readError cx hne hdrive hdata hfailure =>
      obtain rfl := hdrive.stopped_eq h
      have hnil : s.unread = [] := List.eq_nil_of_length_eq_zero (by omega)
      exact .of_failure hrefl rfl rfl rfl hfailure (finish_woken _ _ _ _) rfl rfl
        fun herror => by simp [lateReturn, hne, hnil, herror]
  | readPending cx hne hdrive hdata hhealth =>
      obtain rfl := hdrive.stopped_eq h
      exact absurd hhealth h
  | writeEmpty => exact ⟨hrefl.log _ rfl rfl, by simp [lateReturn], rfl, rfl, rfl⟩
  | @write cx buf poll s₃ hne hqueue =>
      cases hqueue with
      | @failed _ _ s₁ s₂ error hdrive hfailure =>
          obtain rfl := hdrive.stopped_eq h
          have hlate : error = s.health.owed → (.write (.ready (.error error)) : Return E) =
              s.lateReturn (.write cx buf) := fun herror => by simp [lateReturn, hne, herror]
          -- Looking for exhaustion, a write that finds a failure leaves at most an event.
          obtain heq | heq := exhaust_stopped hinv h
          · rw [heq] at hfailure
            exact .of_failure hrefl rfl rfl rfl hfailure (finish_woken _ _ _ _) rfl rfl hlate
          · rw [heq] at hfailure
            exact .of_failure (hrefl.log .exhausted rfl rfl) rfl rfl rfl hfailure
              (finish_woken _ _ _ _) rfl rfl hlate
      | busy hdrive hhealth =>
          obtain rfl := hdrive.stopped_eq h
          exact absurd hhealth h
      | accepted hdrive hhealth =>
          obtain rfl := hdrive.stopped_eq h
          exact absurd hhealth h
  | flushError cx hdrive hfailure =>
      obtain rfl := hdrive.stopped_eq h
      exact .of_failure hrefl rfl rfl rfl hfailure (finish_woken _ _ _ _) rfl rfl
        fun herror => by simp [lateReturn, herror]
  | flushReady cx hdrive hhealth =>
      obtain rfl := hdrive.stopped_eq h
      exact absurd hhealth h
  | flushPending cx hdrive hhealth =>
      obtain rfl := hdrive.stopped_eq h
      exact absurd hhealth h
  | progressError cx hdrive hfailure =>
      obtain rfl := hdrive.stopped_eq h
      exact .of_failure hrefl rfl rfl rfl hfailure (finish_woken _ _ _ _) rfl rfl
        fun herror => by simp [lateReturn, herror]
  | progressPending cx hdrive hhealth =>
      obtain rfl := hdrive.stopped_eq h
      exact absurd hhealth h
  | cancel operation =>
      have hwoken := cancelPending_woken s operation
      have hafter := (hrefl.woken hwoken).log (.returned (.cancel operation) .cancelled) rfl rfl
      obtain ⟨waiters, wakes, heq, -⟩ := hwoken
      rw [heq] at hafter ⊢
      exact ⟨hafter, rfl, rfl, rfl, rfl⟩

/-! ## Runs -/

section Runs

variable [Transport T W E] [Timer C W]

theorem Blame.next (hsound : Sound s) (h : Blame s) (hnext : Next s s') : Blame s' := by
  cases hnext with
  | call hcall =>
      obtain ⟨s₁, hdispatch, rfl⟩ := hsound.dispatch hcall
      exact hdispatch.blame hsound.fits hsound.inv h
  | environment => exact h

theorem Reachable.blame (h : Reachable s) : Blame s := by
  apply h.keep
  · exact fun _ _ _ => .ok
  · exact fun hsound hblame hnext => hblame.next hsound hnext

theorem Next.stopped (hsound : Sound s) (h : s.health ≠ .ok) (hnext : Next s s') :
    Stopped s s' := by
  cases hnext with
  | call hcall =>
      obtain ⟨s₁, hdispatch, rfl⟩ := hsound.dispatch hcall
      exact (hdispatch.late hsound.fits hsound.inv h).stopped
  | environment transport timer => exact ⟨h, .of_eq rfl, rfl, transport, timer, rfl⟩

theorem Run.stopped (hsound : Sound s) (h : s.health ≠ .ok) (hrun : Run s s') : Stopped s s' := by
  induction hrun with
  | refl => exact .refl h
  | tail hrun hnext ih => exact ih.trans (hnext.stopped (hsound.run hrun) ih.health)

/-- A failure is permanent, is reported once, and loses no received data. -/
theorem Reachable.failure_permanent (h : Reachable s) :
    Blame s ∧
      (s.health = .ok → ∀ {call ret s'}, s.call call = some (ret, s') → s'.health ≠ .ok →
        Fails s call ret s') ∧
      (s.health ≠ .ok → ∀ {s'}, Run s s' →
        Stopped s s' ∧ ∀ {call ret s''}, s'.call call = some (ret, s'') → Late s' call ret s'') := by
  refine ⟨h.blame, fun hhealth call ret s' hcall hfailed => ?_, fun hhealth s' hrun => ?_⟩
  · have hblame : Failures s'.health (causes s'.trace) (errors s'.trace) :=
      h.blame.next h.sound (.call hcall)
    have hnone : errors s.trace = [] := by
      have hbefore := h.blame
      rw [Blame, hhealth] at hbefore
      exact hbefore.errors_of_ok
    obtain ⟨s₁, hdispatch, rfl⟩ := h.sound.dispatch hcall
    have herrors : errors (s₁.log (.returned call ret)).trace = ret.error?.toList := by
      simp [hdispatch.errors h.sound.fits h.sound.inv, hnone, Event.error?]
    rw [herrors] at hblame
    -- The failure is fresh: it is what this call returns, or nothing has returned it yet.
    cases hhealth₁ : s₁.health with
    | ok => exact absurd hhealth₁ hfailed
    | failed error =>
        obtain ⟨hcause, hnil⟩ := (hhealth₁ ▸ hblame : Failures (.failed error) _ _).of_failed
        have hret : ret.error? = none := by simpa using hnil
        obtain ⟨len, buf, rfl, hlen⟩ | ⟨payload, rfl, hqueued⟩ :=
          hdispatch.fails h.sound.fits h.sound.inv hhealth hfailed hret
        · exact .reads hcause rfl hlen hhealth₁
        · exact .writes hcause rfl (by simp [hqueued, Event.queued?]) hhealth₁
    | reported =>
        obtain ⟨error, hcause, hhead⟩ := (hhealth₁ ▸ hblame : Failures .reported _ _).of_reported
        exact .reports hcause (by simpa using hhead) hhealth₁
  · have hsound := h.sound.run hrun
    have hstopped := hrun.stopped h.sound hhealth
    refine ⟨hstopped, fun {call ret s''} hcall => ?_⟩
    obtain ⟨s₁, hdispatch, rfl⟩ := hsound.dispatch hcall
    exact hdispatch.late hsound.fits hsound.inv hstopped.health

omit [Target] in
/-- The other side closed the link, and the reader is told once. -/
theorem failure_permanent_eof : letI := target64
    ∃ s, (initial 21 (⟨[], true, [], false⟩ : Link) (⟨0⟩ : FakeClock) testConfig :
        Reliable Link FakeClock Nat MockError 21).calls [.read 1 [0], .flush 2] = some s ∧
      s.health = .reported ∧ errors s.trace = [.unexpectedEof, .failed] ∧ Blame s ∧
      (s.health = .ok → ∀ {call ret s'}, s.call call = some (ret, s') → s'.health ≠ .ok →
        Fails s call ret s') ∧
      (s.health ≠ .ok → ∀ {s'}, Run s s' →
        Stopped s s' ∧ ∀ {call ret s''}, s'.call call = some (ret, s'') → Late s' call ret s'') := by
  let := target64
  have hcalls : ((initial 21 (⟨[], true, [], false⟩ : Link) (⟨0⟩ : FakeClock) testConfig :
      Reliable Link FakeClock Nat MockError 21).calls [.read 1 [0], .flush 2]).map
        (fun s => (s.health, errors s.trace)) = some (.reported, [.unexpectedEof, .failed]) := by
    decide +kernel
  obtain ⟨s, hs, hfields⟩ := Option.map_eq_some_iff.mp hcalls
  obtain ⟨hhealth, herrors⟩ := Prod.mk.inj hfields
  have hreachable : s.Reachable := ⟨_, _, _, _, rfl, run_of_calls hs⟩
  exact ⟨s, hs, hhealth, herrors, hreachable.failure_permanent⟩

end Runs

end Reliable

end CobsIoAsync.Connection
