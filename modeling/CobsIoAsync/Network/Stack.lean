import CobsIoAsync.Connection.Contract
import CobsIoAsync.Connection.Failure
import CobsIoAsync.Connection.Link
import CobsIoAsync.Connection.Lockstep
import CobsIoAsync.Network.Channel
import CobsIoAsync.Network.Fifo

/-!
# Network.Stack — a connection as the transport of another one

`Reliable` implements the trait that it drives.  Two connections over two connections that trust
each other are two connections over links that hand over every accepted byte in order, so that all
that is known of such links holds of them.
-/

namespace CobsIoAsync.Connection

open Reasoning Protocol

variable {T C W E : Type} {N : Nat}

/-! ## What a call returns -/

theorem Event.untold_of_not_isReturned {event : Event W E} (h : event.isReturned = false) :
    event.written? = none ∧ event.readBytes = [] := by
  cases event <;> first | exact ⟨rfl, rfl⟩ | cases h

namespace Reliable

variable {s s' : Reliable T C W E N}
variable [Target] [Waker W] [Transport T W E] [Timer C W]

/-- A call accepts and returns the bytes that its return tells of. -/
theorem Sound.transferred (h : Sound s) {call : Call W} {ret : Return E}
    (hcall : s.call call = some (ret, s')) :
    readOut s'.trace = readOut s.trace ++ (Event.returned call ret).readBytes ∧
      written s'.trace = written s.trace ++ (Event.returned call ret).written?.toList := by
  obtain ⟨s₁, hdispatch, rfl⟩ := h.dispatch hcall
  obtain ⟨events, htrace, hnone⟩ := (hdispatch.unreturned h.fits h.inv).mono
    fun event hevent => Event.untold_of_not_isReturned hevent
  have hw : written events = [] := List.filterMap_eq_nil_iff.mpr fun e he => (hnone e he).1
  have hr : readOut events = [] := List.flatMap_eq_nil_iff.mpr fun e he => (hnone e he).2
  simp [htrace, hw, hr]

/-- `poll_read` of a reachable connection returns, and is a call of it. -/
theorem Reachable.pollRead_returns (h : Reachable s) (cx : W) {n : Nat} (buf : Bytes n) :
    Returns (s.pollRead cx buf) fun r =>
      s.call (.read cx buf.toList) = some (.read r.1 r.2.1.toList,
        r.2.2.log (.returned (.read cx buf.toList) (.read r.1 r.2.1.toList))) := by
  obtain ⟨list, rfl⟩ := buf
  obtain ⟨ret, s', hcall⟩ := h.sound.call_returns (.read cx list)
  obtain ⟨s₁, hdispatch, rfl⟩ := call_eq_some.mp hcall
  obtain ⟨r, hr, hret⟩ := Option.bind_eq_some_iff.mp hdispatch
  obtain ⟨rfl, rfl⟩ := Prod.mk.inj (Option.some.inj hret)
  exact ⟨r, hr, hcall⟩

theorem Reachable.pollWrite_returns (h : Reachable s) (cx : W) (buf : List UInt8) :
    Returns (s.pollWrite cx buf) fun r => s.call (.write cx buf) =
      some (.write r.1, r.2.log (.returned (.write cx buf) (.write r.1))) := by
  obtain ⟨ret, s', hcall⟩ := h.sound.call_returns (.write cx buf)
  obtain ⟨s₁, hdispatch, rfl⟩ := call_eq_some.mp hcall
  obtain ⟨r, hr, hret⟩ := Option.bind_eq_some_iff.mp hdispatch
  obtain ⟨rfl, rfl⟩ := Prod.mk.inj (Option.some.inj hret)
  exact ⟨r, hr, hcall⟩

theorem Reachable.pollFlush_returns (h : Reachable s) (cx : W) :
    Returns (s.pollFlush cx) fun r => s.call (.flush cx) =
      some (.flush r.1, r.2.log (.returned (.flush cx) (.flush r.1))) := by
  obtain ⟨ret, s', hcall⟩ := h.sound.call_returns (.flush cx)
  obtain ⟨s₁, hdispatch, rfl⟩ := call_eq_some.mp hcall
  obtain ⟨r, hr, hret⟩ := Option.bind_eq_some_iff.mp hdispatch
  obtain ⟨rfl, rfl⟩ := Prod.mk.inj (Option.some.inj hret)
  exact ⟨r, hr, hcall⟩

theorem Reachable.call (h : Reachable s) {call : Call W} {ret : Return E}
    (hcall : s.call call = some (ret, s')) : Reachable s' := h.run (.single (.call hcall))

end Reliable

/-! ## A connection as a transport -/

section Lower

variable [Target] [Waker W] [Transport T W E] [Timer C W]

/-- A connection that `new` made and that was used since. -/
abbrev Connected (T C W E : Type) (N : Nat) [Waker W] [Transport T W E] [Timer C W] : Type :=
  { s : Reliable T C W E N // s.Reachable }

/-- `impl Transport for Reliable`; its calls are recorded as all calls are. -/
instance : Transport (Connected T C W E N) W (ConnectionError E) where
  pollRead s cx buf :=
    let hreturns := s.2.pollRead_returns cx buf
    (⟨hreturns.get.2.2.log
        (.returned (.read cx buf.toList) (.read hreturns.get.1 hreturns.get.2.1.toList)),
      s.2.call hreturns.get_post⟩, hreturns.get.2.1, hreturns.get.1)
  pollWrite s cx buf :=
    let hreturns := s.2.pollWrite_returns cx buf
    (⟨hreturns.get.2.log (.returned (.write cx buf) (.write hreturns.get.1)),
      s.2.call hreturns.get_post⟩, hreturns.get.1)
  pollFlush s cx :=
    let hreturns := s.2.pollFlush_returns cx
    (⟨hreturns.get.2.log (.returned (.flush cx) (.flush hreturns.get.1)),
      s.2.call hreturns.get_post⟩, hreturns.get.1)

namespace Connected

variable (s : Connected T C W E N) (cx : W)

theorem pollRead_call {n : Nat} (buf : Bytes n) :
    s.1.call (.read cx buf.toList) =
      some (.read (Transport.pollRead s cx buf).2.2 (Transport.pollRead s cx buf).2.1.toList,
        (Transport.pollRead s cx buf).1.1) := (s.2.pollRead_returns cx buf).get_post

theorem pollWrite_call (buf : List UInt8) :
    s.1.call (.write cx buf) =
      some (.write (Transport.pollWrite s cx buf).2, (Transport.pollWrite s cx buf).1.1) :=
  (s.2.pollWrite_returns cx buf).get_post

theorem pollFlush_call :
    s.1.call (.flush cx) =
      some (.flush (Transport.pollFlush s cx).2, (Transport.pollFlush s cx).1.1) :=
  (s.2.pollFlush_returns cx).get_post

end Connected

/-! ## What the upper connection knows of the lower one -/

/-- What an upper connection records of a call of the lower one. -/
inductive Mirrors : Call W → Return E → Event W (ConnectionError E) → Prop
  | read (cx : W) {n : Nat} (buf buf' : Bytes n) (poll : Poll (Except (ConnectionError E) Nat)) :
      Mirrors (.read cx buf.toList) (.read poll buf'.toList)
        (.pollRead cx n poll (buf'.toList.take (readCount n poll)))
  | write (cx : W) (frame : Frame) (pending : List UInt8)
      (poll : Poll (Except (ConnectionError E) Nat)) :
      Mirrors (.write cx pending) (.write poll) (.pollWrite cx frame pending poll)
  | flush (cx : W) (frame : Frame) (poll : Poll (Except (ConnectionError E) Unit)) :
      Mirrors (.flush cx) (.flush poll) (.pollFlush cx frame poll)

namespace Mirrors

omit [Target] [Waker W]

variable {call : Call W} {ret : Return E} {event : Event W (ConnectionError E)}

theorem receivedBytes (h : Mirrors call ret event) :
    event.receivedBytes = (Event.returned call ret).readBytes := by
  cases h with
  | read cx buf buf' poll =>
      cases poll with
      | pending => rfl
      | ready result =>
          cases result with
          | error error => rfl
          | ok count =>
              simp only [Event.receivedBytes, Event.readBytes, readCount]
              rw [List.take_eq_take_min (i := count), buf'.length_toList]
  | write cx frame pending poll => cases poll <;> rfl
  | flush cx frame poll => cases poll <;> rfl

theorem acceptedBytes (h : Mirrors call ret event) :
    event.acceptedBytes = ((Event.returned call ret).written?.toList).flatten := by
  cases h with
  | read => rfl
  | write cx frame pending poll =>
      cases poll with
      | pending => rfl
      | ready result =>
          cases result with
          | error error => rfl
          | ok count =>
              by_cases hne : pending = []
              · simp [Event.acceptedBytes, Event.written?, hne]
              · simp [Event.acceptedBytes, Event.written?, hne]
  | flush => rfl

/-- Since the lower connection keeps to the trait, only an error that it returns can stop the upper
one. -/
theorem cause (h : Mirrors call ret event) (hoffers : event.Offers) (hkept : call.Kept ret)
    {error : ConnectionError (ConnectionError E)} (hcause : event.cause? = some error) :
    ∃ below, ret.error? = some below ∧ error = .transport below := by
  cases h with
  | read cx buf buf' poll =>
      cases poll with
      | pending => cases hcause
      | ready result =>
          cases result with
          | error below => exact ⟨below, rfl, (Option.some.inj hcause).symm⟩
          | ok count =>
              have hne : buf.toList ≠ [] := List.length_pos_iff.mp (by
                rw [buf.length_toList]
                exact hoffers)
              obtain ⟨n, rfl⟩ := Nat.exists_eq_succ_of_ne_zero (hkept.2.1 hne).ne'
              cases hcause
  | write cx frame pending poll =>
      cases poll with
      | pending => cases hcause
      | ready result =>
          cases result with
          | error below => exact ⟨below, rfl, (Option.some.inj hcause).symm⟩
          | ok count =>
              obtain ⟨n, rfl⟩ := Nat.exists_eq_succ_of_ne_zero (hkept.2 hoffers).ne'
              cases hcause
  | flush cx frame poll =>
      cases poll with
      | pending => cases hcause
      | ready result =>
          cases result with
          | error below => exact ⟨below, rfl, (Option.some.inj hcause).symm⟩
          | ok => cases hcause

end Mirrors

/-- What the calls of the lower connection keep. -/
theorem Connected.watch {K : Connected T C W E N → List (Event W (ConnectionError E)) → Prop}
    (hcall : ∀ {t t' trace call ret event}, t.1.call call = some (ret, t'.1) →
      Mirrors call ret event → K t trace → K t' (trace ++ [event]))
    (haside : ∀ {t trace} (event : Event W (ConnectionError E)), event.asks = false →
      K t trace → K t (trace ++ [event])) : Watch K where
  read cx buf hkept := hcall (Connected.pollRead_call _ cx buf) (.read cx buf _ _) hkept
  write cx frame pending hkept :=
    hcall (Connected.pollWrite_call _ cx pending) (.write cx frame pending _) hkept
  flush cx frame hkept := hcall (Connected.pollFlush_call _ cx) (.flush cx frame _) hkept
  aside event hevent hkept := haside event hevent hkept

/-- The lower connection went from `t₀` to `t`, and what it transferred is what the trace of the
upper one tells. -/
structure Follows (t₀ t : Connected T C W E N) (trace : List (Event W (ConnectionError E))) :
    Prop where
  run : t₀.1.Run t.1
  received_eq : received trace = readOut t.1.trace
  accepted_eq : accepted trace = (written t.1.trace).flatten

/-- The errors that arise in a connection over one that returned the errors `below`. -/
inductive Arises (below : List (ConnectionError E)) : ConnectionError (ConnectionError E) → Prop
  | timeout : Arises below .timeout
  | sequenceExhausted : Arises below .sequenceExhausted
  | transport {error : ConnectionError E} (h : error ∈ below) : Arises below (.transport error)

omit [Target] in
theorem Arises.mono {below below' : List (ConnectionError E)}
    {error : ConnectionError (ConnectionError E)} (h : Arises below error)
    (hsubset : below ⊆ below') : Arises below' error := by
  cases h with
  | timeout => exact .timeout
  | sequenceExhausted => exact .sequenceExhausted
  | transport hmem => exact .transport (hsubset hmem)

/-- Where the upper connection offers something, nothing else stops it. -/
def Blames (t : Connected T C W E N) (trace : List (Event W (ConnectionError E))) : Prop :=
  ∀ event ∈ trace, event.Offers → ∀ error, event.cause? = some error →
    Arises (errors t.1.trace) error

variable {t₀ t : Connected T C W E N} {trace : List (Event W (ConnectionError E))}

theorem Follows.refl (hreceived : received trace = readOut t.1.trace)
    (haccepted : accepted trace = (written t.1.trace).flatten) : Follows t t trace :=
  ⟨.refl, hreceived, haccepted⟩

theorem watch_follows (t₀ : Connected T C W E N) : Watch (Follows t₀) := by
  refine Connected.watch (fun {t t' trace call ret event} hcall hmirrors h => ?_)
    fun {t trace} event hevent h => ?_
  · obtain ⟨hread, hwritten⟩ := t.2.sound.transferred hcall
    refine ⟨h.run.tail (.call hcall), ?_, ?_⟩
    · rw [received_append, received_singleton, h.received_eq, hread, hmirrors.receivedBytes]
    · rw [accepted_append, accepted_singleton, h.accepted_eq, hwritten, hmirrors.acceptedBytes,
        List.flatten_append]
  · -- what does not concern the lower connection moves no bytes
    have hnone : event.receivedBytes = [] ∧ event.acceptedBytes = [] := by
      cases event <;> first | exact ⟨rfl, rfl⟩ | cases hevent
    refine ⟨h.run, ?_, ?_⟩
    · rw [received_append, received_singleton, hnone.1, List.append_nil, h.received_eq]
    · rw [accepted_append, accepted_singleton, hnone.2, List.append_nil, h.accepted_eq]

theorem Blames.mono {t' : Connected T C W E N} (h : Blames t trace)
    (herrors : errors t.1.trace ⊆ errors t'.1.trace) : Blames t' trace :=
  fun event hevent hoffers error hcause => (h event hevent hoffers error hcause).mono herrors

theorem Blames.snoc (h : Blames t trace) {event : Event W (ConnectionError E)}
    (hevent : event.Offers → ∀ error, event.cause? = some error →
      Arises (errors t.1.trace) error) : Blames t (trace ++ [event]) := by
  intro other hother
  rcases List.mem_append.mp hother with hold | hlast
  · exact h other hold
  · obtain rfl := List.mem_singleton.mp hlast
    exact hevent

theorem watch_blames : Watch (Blames (T := T) (C := C) (W := W) (E := E) (N := N)) := by
  refine Connected.watch (fun {t t' trace call ret event} hcall hmirrors h => ?_)
    fun {t trace} event hevent h => h.snoc fun _ error hcause => ?_
  · obtain ⟨s₁, hdispatch, hlog⟩ := t.2.sound.dispatch hcall
    obtain ⟨events, htrace, -⟩ := hdispatch.unreturned t.2.sound.fits t.2.sound.inv
    have herrors : errors t'.1.trace =
        errors t.1.trace ++ (errors events ++ ret.error?.toList) := by
      simp [hlog, htrace, Event.error?]
    have hmono : errors t.1.trace ⊆ errors t'.1.trace := by
      rw [herrors]
      exact List.subset_append_left _ _
    refine (h.mono hmono).snoc fun hoffers error hcause => ?_
    obtain ⟨below, hbelow, rfl⟩ :=
      hmirrors.cause hoffers (hdispatch.kept t.2.sound.fits t.2.sound.inv) hcause
    refine .transport ?_
    rw [herrors, hbelow]
    simp
  · cases event with
    | timedOut =>
        obtain rfl := Option.some.inj hcause
        exact .timeout
    | exhausted =>
        obtain rfl := Option.some.inj hcause
        exact .sequenceExhausted
    | pollRead => cases hevent
    | pollWrite => cases hevent
    | pollFlush => cases hevent
    | _ => cases hcause

section Upper

variable {C₂ : Type} [Timer C₂ W] {M : Nat}

/-- One step of an upper connection: a call of it, or a change of the link below the lower one and
of the clocks. -/
inductive Above : Reliable (Connected T C W E N) C₂ W (ConnectionError E) M →
    Reliable (Connected T C W E N) C₂ W (ConnectionError E) M → Prop
  | call {s s' : Reliable (Connected T C W E N) C₂ W (ConnectionError E) M} {call : Call W}
      {ret : Return (ConnectionError E)} (h : s.call call = some (ret, s')) : Above s s'
  | environment (s : Reliable (Connected T C W E N) C₂ W (ConnectionError E) M)
      (lower : Connected T C W E N) (transport : T) (timer : C) (clock : C₂)
      (hlower : lower.1 = { s.transport.1 with transport, timer }) :
      Above s { s with transport := lower, timer := clock }

variable {s s' : Reliable (Connected T C W E N) C₂ W (ConnectionError E) M}

theorem Above.next (h : Above s s') : s.Next s' := by
  cases h with
  | call hcall => exact .call hcall
  | environment lower transport timer clock hlower => exact .environment s lower clock

theorem Above.follows (h : Above s s') (hfollows : Follows s.transport s.transport s.trace) :
    Follows s.transport s'.transport s'.trace := by
  cases h with
  | call hcall => exact (watch_follows s.transport).call hfollows hcall
  | environment lower transport timer clock hlower =>
      refine ⟨.single ?_, ?_, ?_⟩
      · rw [hlower]
        exact .environment s.transport.1 transport timer
      · rw [hlower]
        exact hfollows.received_eq
      · rw [hlower]
        exact hfollows.accepted_eq

theorem Above.blames (h : Above s s') (hblames : Blames s.transport s.trace) :
    Blames s'.transport s'.trace := by
  cases h with
  | call hcall => exact watch_blames.call hblames hcall
  | environment lower transport timer clock hlower =>
      refine hblames.mono ?_
      rw [hlower]
      exact List.Subset.refl _

/-- The states of a new connection over a connection that may have been used before. -/
def Over (s : Reliable (Connected T C W E N) C₂ W (ConnectionError E) M) : Prop :=
  ∃ lower clock config s₀, Reliable.new M lower clock config = some (.ok s₀) ∧
    Relation.ReflTransGen Above s₀ s

theorem Over.reachable (h : Over s) : s.Reachable := by
  obtain ⟨lower, clock, config, s₀, hnew, hrun⟩ := h
  exact ⟨lower, clock, config, s₀, hnew, hrun.lift id fun _ _ => Above.next⟩

theorem Over.blames (h : Over s) : Blames s.transport s.trace := by
  obtain ⟨lower, clock, config, s₀, hnew, hrun⟩ := h
  obtain ⟨-, rfl⟩ := Reliable.new_eq_ok.mp hnew
  induction hrun with
  | refl => exact fun event hevent => absurd hevent List.not_mem_nil
  | tail _ hlast ih => exact hlast.blames ih

/-- A connection over another one returns the errors that the one below returned, time outs and the
exhaustion of its own sequence numbers.  The end of the stream and a write of no bytes are none of
them. -/
theorem Over.blamed (h : Over s) :
    ∀ error ∈ errors s.trace, error = .failed ∨ Arises (errors s.transport.1.trace) error := by
  intro error herror
  by_cases hfailed : error = .failed
  · exact .inl hfailed
  obtain ⟨event, hevent, hcause⟩ :=
    List.mem_filterMap.mp (h.reachable.blame.mem_causes herror hfailed)
  exact .inr (h.blames event hevent (h.reachable.offering.offers event hevent) error hcause)

end Upper

end Lower

/-! ## The link of the tests hangs up -/

/-- A connection whose link is closed. -/
def closedLower : letI := target64; Connected Link FakeClock Nat MockError 21 :=
  letI := target64
  ⟨.initial 21 (⟨[], true, [], false⟩ : Link) ⟨0⟩ testConfig, ⟨[], true, [], false⟩, ⟨0⟩,
    testConfig, _, rfl, .refl⟩

/-- A connection over it makes progress. -/
def hungUp : letI := target64; Exec
    (Reliable (Connected Link FakeClock Nat MockError 21) FakeClock Nat (ConnectionError MockError)
      21) :=
  letI := target64
  do
    let (_, s) ← Reliable.call (.initial 21 closedLower ⟨0⟩ testConfig) (.progress 1)
    some s

/-- The end of the stream below is an error of the transport above. -/
theorem blamed_hungUp : letI := target64
    ∃ s, hungUp = some s ∧ errors s.trace = [.transport .unexpectedEof] ∧
      ∀ error ∈ errors s.trace, error = .failed ∨ Arises (errors s.transport.1.trace) error := by
  let := target64
  have herrors : hungUp.map (fun s => errors s.trace) = some [.transport .unexpectedEof] := by
    decide +kernel
  obtain ⟨s, hs, herrors⟩ := Option.map_eq_some_iff.mp herrors
  obtain ⟨ret, hcall⟩ : ∃ ret, Reliable.call (.initial 21 closedLower ⟨0⟩ testConfig)
      (.progress 1) = some (ret, s) := by
    simpa [hungUp, Option.bind_eq_some_iff] using hs
  have hover : Over s := ⟨closedLower, ⟨0⟩, testConfig, _, rfl, .single (.call hcall)⟩
  exact ⟨s, hs, herrors, hover.blamed⟩

/-! ## Two stacks -/

variable [Target] [Waker W]

/-- A run of one side in which it comes to trust the other one. -/
theorem Peers.Reachable.left_run [Transport T W E] [Timer C W] {T' C' W' E' : Type} [Waker W']
    [Transport T' W' E'] [Timer C' W'] {N' : Nat} {a a' : Reliable T C W E N}
    {b : Reliable T' C' W' E' N'} (h : Peers.Reachable ⟨a, b⟩) (hrun : a.Run a')
    (htrust : a'.Trusts b.trace) : Peers.Reachable ⟨a', b⟩ := by
  induction hrun with
  | refl => exact h
  | @tail a₁ a' hbefore hnext ih =>
      have hmoves := hnext.moves (h.sound.left.run hbefore).sound
      exact (ih (htrust.mono hmoves.trace hmoves.config List.prefix_rfl)).step (.left hnext htrust)

namespace Stack

variable [Transport T W E] [Timer C W] {C₂ : Type} [Timer C₂ W] {M : Nat}
variable {T' C' W' E' : Type} [Waker W'] [Transport T' W' E'] [Timer C' W'] {N' : Nat}
  {C₂' : Type} [Timer C₂' W'] {M' : Nat}

variable {p p' : Peers (Connected T C W E N) C₂ W (ConnectionError E) M
  (Connected T' C' W' E' N') C₂' W' (ConnectionError E') M'}

/-- The two connections below. -/
def lower (p : Peers (Connected T C W E N) C₂ W (ConnectionError E) M
    (Connected T' C' W' E' N') C₂' W' (ConnectionError E') M') : Peers T C W E N T' C' W' E' N' :=
  ⟨p.a.transport.1, p.b.transport.1⟩

/-- One of two stacks makes a step, and its lower connection parses nothing of its session that the
other one has not encoded yet. -/
inductive Step : Peers (Connected T C W E N) C₂ W (ConnectionError E) M
      (Connected T' C' W' E' N') C₂' W' (ConnectionError E') M' →
    Peers (Connected T C W E N) C₂ W (ConnectionError E) M
      (Connected T' C' W' E' N') C₂' W' (ConnectionError E') M' → Prop
  | left {p : Peers (Connected T C W E N) C₂ W (ConnectionError E) M
        (Connected T' C' W' E' N') C₂' W' (ConnectionError E') M'}
      {a : Reliable (Connected T C W E N) C₂ W (ConnectionError E) M} (h : Above p.a a)
      (htrust : a.transport.1.Trusts p.b.transport.1.trace) : Step p { p with a }
  | right {p : Peers (Connected T C W E N) C₂ W (ConnectionError E) M
        (Connected T' C' W' E' N') C₂' W' (ConnectionError E') M'}
      {b : Reliable (Connected T' C' W' E' N') C₂' W' (ConnectionError E') M'} (h : Above p.b b)
      (htrust : b.transport.1.Trusts p.a.transport.1.trace) : Step p { p with b }

/-- The states of two stacks of new connections, of one session on each level. -/
def Reachable (p : Peers (Connected T C W E N) C₂ W (ConnectionError E) M
    (Connected T' C' W' E' N') C₂' W' (ConnectionError E') M') : Prop :=
  ∃ p₀, Peers.Start p₀ ∧ Peers.Start (lower p₀) ∧ Relation.ReflTransGen Step p₀ p

/-- What holds of two stacks after every step. -/
structure Sound (p : Peers (Connected T C W E N) C₂ W (ConnectionError E) M
    (Connected T' C' W' E' N') C₂' W' (ConnectionError E') M') : Prop where
  lower : (lower p).Reachable
  left : Follows p.a.transport p.a.transport p.a.trace
  right : Follows p.b.transport p.b.transport p.b.trace
  upper : Fifo.Reachable p

theorem Sound.swap (h : Sound p) : Sound p.swap :=
  ⟨h.lower.swap, h.right, h.left, h.upper.swap⟩

/-- What the upper connection received is a beginning of what the other one sent, since it was read
from the lower one. -/
theorem Sound.left_step (h : Sound p)
    {a : Reliable (Connected T C W E N) C₂ W (ConnectionError E) M} (habove : Above p.a a)
    (htrust : a.transport.1.Trusts p.b.transport.1.trace) : Sound { p with a } := by
  have hfollows := habove.follows h.left
  have hlower : Peers.Reachable ⟨a.transport.1, p.b.transport.1⟩ :=
    Peers.Reachable.left_run h.lower hfollows.run htrust
  have hfifo : received a.trace <+: accepted p.b.trace := by
    rw [hfollows.received_eq, h.right.accepted_eq]
    exact hlower.sound.swap.arrives.readOut_prefix
  exact ⟨hlower, .refl hfollows.received_eq hfollows.accepted_eq, h.right,
    h.upper.step (.left habove.next hfifo)⟩

theorem Sound.step (h : Sound p) (hstep : Step p p') : Sound p' := by
  cases hstep with
  | left habove htrust => exact h.left_step habove htrust
  | right habove htrust => exact (h.swap.left_step habove htrust).swap

theorem Start.sound (h : Peers.Start p) (hlower : Peers.Start (lower p)) : Sound p := by
  have htrace := h.trace
  have htrace' : p.a.transport.1.trace = [] ∧ p.b.transport.1.trace = [] := hlower.trace
  refine ⟨⟨_, hlower, .refl⟩, .refl ?_ ?_, .refl ?_ ?_, ⟨p, h, .refl⟩⟩
  · rw [htrace.1, htrace'.1]
    rfl
  · rw [htrace.1, htrace'.1]
    rfl
  · rw [htrace.2, htrace'.2]
    rfl
  · rw [htrace.2, htrace'.2]
    rfl

/-- Two connections over two connections that trust each other are two connections over links that
hand over every accepted byte, in order. -/
theorem Reachable.stacks (h : Reachable p) : Fifo.Reachable p ∧ (lower p).Reachable := by
  obtain ⟨p₀, hstart, hlower, hrun⟩ := h
  have hsound : Sound p := by
    induction hrun with
    | refl => exact Start.sound hstart hlower
    | tail _ hstep ih => exact ih.step hstep
  exact ⟨hsound.upper, hsound.lower⟩

/-! ## Stacks over the link of the tests -/

/-- Two stacks of connections of the tests. -/
abbrev OverLinks : Type := letI := target64
  Peers (Connected Link FakeClock Nat MockError 21) FakeClock Nat (ConnectionError MockError) 21
    (Connected Link FakeClock Nat MockError 21) FakeClock Nat (ConnectionError MockError) 21

def testLower (incoming : List UInt8) :
    letI := target64; Connected Link FakeClock Nat MockError 21 :=
  letI := target64
  ⟨testConnection incoming, .holding incoming, ⟨0⟩, testConfig, _, rfl, .refl⟩

def testStack (incoming : List UInt8) : letI := target64
    Reliable (Connected Link FakeClock Nat MockError 21) FakeClock Nat (ConnectionError MockError)
      21 :=
  letI := target64
  .initial 21 (testLower incoming) ⟨0⟩ testConfig

/-- One side writes a byte; what its lower connection sends arrives at the other one. -/
def carried : letI := target64; Exec OverLinks :=
  letI := target64
  do
    let (_, a) ← (testStack []).call (.write 1 [5])
    let (_, b) ← (testStack a.transport.1.transport.outgoing).call (.progress 2)
    some ⟨a, b⟩

omit [Target] in
theorem reachable_of_carried {p : OverLinks} (h : letI := target64; carried = some p)
    (htrustLeft : p.a.transport.1.Trusts (testConnection []).trace)
    (htrust : p.b.transport.1.Trusts p.a.transport.1.trace) : letI := target64; Reachable p := by
  let := target64
  unfold carried at h
  simp only [Option.bind_eq_bind, Option.bind_eq_some_iff, Prod.exists, Option.some.injEq] at h
  obtain ⟨_, a, ha, _, b, hb, rfl⟩ := h
  refine ⟨⟨testStack [], testStack []⟩, ?_, ?_, ?_⟩
  · exact ⟨testLower [], ⟨0⟩, testConfig, testLower [], ⟨0⟩, testConfig, rfl, rfl, rfl⟩
  · exact ⟨.holding [], ⟨0⟩, testConfig, .holding [], ⟨0⟩, testConfig, rfl, rfl, rfl⟩
  · -- what was sent below is put on the other link, and only then read
    have hcarry : Above (testStack []) (testStack a.transport.1.transport.outgoing) :=
      .environment _ (testLower a.transport.1.transport.outgoing)
        (.holding a.transport.1.transport.outgoing) (FakeClock.mk 0) (FakeClock.mk 0) rfl
    refine .head (.left (.call ha) htrustLeft) (.head (.right hcarry ?_)
      (.single (.right (.call hb) htrust)))
    intro packet hpacket
    cases hpacket

omit [Target] in
/-- A byte of the frame of the upper connection crosses. -/
theorem stacks_carried : letI := target64
    ∃ p, carried = some p ∧ accepted p.a.trace = [0] ∧ received p.b.trace = [0] ∧
      Fifo.Reachable p := by
  let := target64
  obtain ⟨p, hp⟩ := Option.isSome_iff_exists.mp (show carried.isSome by decide +kernel)
  have hstate : carried.map (fun p => (accepted p.a.trace, received p.b.trace,
      decide (p.a.transport.1.Trusts (testConnection []).trace),
      decide (p.b.transport.1.Trusts p.a.transport.1.trace))) = some ([0], [0], true, true) := by
    decide +kernel
  rw [hp] at hstate
  obtain ⟨haccepted, hreceived, htrustLeft, htrust⟩ : _ ∧ _ ∧ _ ∧ _ := by
    simpa only [Option.map_some, Option.some.injEq, Prod.mk.injEq] using hstate
  have hreach := reachable_of_carried hp (of_decide_eq_true htrustLeft) (of_decide_eq_true htrust)
  exact ⟨p, hp, haccepted, hreceived, hreach.stacks.1⟩

end Stack

end CobsIoAsync.Connection
