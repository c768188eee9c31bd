import CobsIoAsync.Connection.Framing
import CobsIoAsync.Connection.Link
import CobsIoAsync.Connection.Retransmit

/-!
# Connection.Allowance — the last input before a packet is given up

Once the deadline of a packet has passed, the connection reads on until the input blocks or
`FINAL_INPUT` bytes were read.  An acknowledgement within this allowance releases the packet; behind
it the packet is sent again, or the connection times out.  `after` is everywhere what the trace grew
by since the allowance was granted.
-/

namespace CobsIoAsync.Connection

open Reasoning Protocol

variable {T C W E : Type} {N : Nat}

/-- A read that finds nothing. -/
def Event.blocks : Event W E → Bool
  | .pollRead _ _ .pending _ => true
  | _ => false

/-- Events that decide what becomes of the packet in flight. -/
def Event.decides : Event W E → Bool
  | .released _ | .timedOut | .started .data _ _ => true
  | _ => false

/-- Events that end the wait for the acknowledgement of packet `seq`. -/
def Event.settles (seq : UInt32) : Event W E → Bool
  | .timedOut => true
  | .released seq' | .started .data seq' _ => seq' = seq
  | _ => false

/-- An event that has nothing to do with received bytes or with the packet in flight. -/
structure Event.Passes (event : Event W E) : Prop where
  decides : event.decides = false
  blocks : event.blocks = false
  receivedBytes : event.receivedBytes = []
  frame? : event.frame? = none

theorem Event.blocks_of_input {event : Event W E} (h : event.input = true) :
    event.blocks = false := by
  cases event <;> first | rfl | cases h

/-- The allowance is used up. -/
def UsedUp (N : Nat) (after : List (Event W E)) : Prop :=
  (∃ event ∈ after, event.blocks = true) ∨ Reliable.finalInputLen N ≤ (received after).length

/-- A packet is released before anything else becomes of it. -/
def Released (seq : UInt32) (after : List (Event W E)) : Prop :=
  ∃ quiet rest, after = quiet ++ .released seq :: rest ∧ ∀ event ∈ quiet, event.decides = false

section Events

variable {seq : UInt32} {after events : List (Event W E)}

theorem UsedUp.append (h : UsedUp N after) (events : List (Event W E)) :
    UsedUp N (after ++ events) := by
  rcases h with ⟨event, hevent, hblocks⟩ | hlen
  · exact .inl ⟨event, List.mem_append_left _ hevent, hblocks⟩
  · right
    rw [received_append, List.length_append]
    omega

theorem Released.append (h : Released seq after) (events : List (Event W E)) :
    Released seq (after ++ events) := by
  obtain ⟨quiet, rest, rfl, hquiet⟩ := h
  exact ⟨quiet, rest ++ events, by simp, hquiet⟩

theorem Released.behind (h : Released seq events) (hafter : ∀ event ∈ after, event.decides = false) :
    Released seq (after ++ events) := by
  obtain ⟨quiet, rest, rfl, hquiet⟩ := h
  refine ⟨after ++ quiet, rest, by simp, fun event hevent => ?_⟩
  exact (List.mem_append.mp hevent).elim (hafter event) (hquiet event)

theorem Released.mem (h : Released seq after) : .released seq ∈ after := by
  obtain ⟨quiet, rest, rfl, -⟩ := h
  simp

/-- What decides otherwise comes behind the release. -/
theorem Released.before {before rest : List (Event W E)} {event : Event W E}
    (h : Released seq (before ++ event :: rest)) (hdecides : event.decides = true)
    (hne : event ≠ .released seq) : .released seq ∈ before := by
  obtain ⟨quiet, rest', hsplit, hquiet⟩ := h
  rcases split_append hsplit.symm with ⟨mid, rfl, -⟩ | ⟨front, rfl, hfront⟩
  · have hnot := hquiet event (by simp)
    simp [hdecides] at hnot
  · cases front with
    | nil => exact absurd (List.cons.inj hfront).1.symm hne
    | cons event' front =>
        obtain ⟨rfl, -⟩ := List.cons.inj hfront
        simp

end Events

namespace Reliable

variable {s s' s'' : Reliable T C W E N}

/-! ## Waiting on -/

/-- The packet in flight and its allowance stay as they are. -/
structure Held (s s' : Reliable T C W E N) : Prop where
  tx : s'.tx = s.tx
  txNext : s'.txNext = s.txNext
  config : s'.config = s.config
  finalInput : s'.finalInput = s.finalInput

theorem Held.refl (s : Reliable T C W E N) : Held s s := ⟨rfl, rfl, rfl, rfl⟩

theorem Held.trans (h : Held s s') (h' : Held s' s'') : Held s s'' :=
  ⟨h'.1.trans h.1, h'.2.trans h.2, h'.3.trans h.3, h'.4.trans h.4⟩

/-- The connection waits on while events are recorded, none of which is about packet `seq`. -/
structure Waits (seq : UInt32) (s s' : Reliable T C W E N) (events : List (Event W E)) : Prop where
  trace : s'.trace = s.trace ++ events
  held : Held s s'
  quiet : ∀ event ∈ events, event.decides = false
  ready : ∀ event ∈ events, event.blocks = false
  received : received events = []
  unanswered : ∀ body ∈ frames events, packetOf N body ≠ some (.ack s.config.session seq)

theorem Waits.trans {seq : UInt32} {events events' : List (Event W E)} (h : Waits seq s s' events)
    (h' : Waits seq s' s'' events') : Waits seq s s'' (events ++ events') := by
  refine ⟨by rw [h'.trace, h.trace, List.append_assoc], h.held.trans h'.held, ?_, ?_, ?_, ?_⟩
  · intro event hevent
    exact (List.mem_append.mp hevent).elim (h.quiet event) (h'.quiet event)
  · intro event hevent
    exact (List.mem_append.mp hevent).elim (h.ready event) (h'.ready event)
  · rw [received_append, h.received, h'.received, List.append_nil]
  · intro body hbody
    rw [frames_append] at hbody
    rcases List.mem_append.mp hbody with hbody | hbody
    · exact h.unanswered body hbody
    · rw [← h.held.config]
      exact h'.unanswered body hbody

theorem Held.waits (h : Held s s') (hadds : Adds Event.Passes s s') (seq : UInt32) :
    ∃ events, Waits seq s s' events := by
  obtain ⟨events, htrace, hpasses⟩ := hadds
  have hframes : frames events = [] :=
    List.filterMap_eq_nil_iff.mpr fun event hevent => (hpasses event hevent).frame?
  refine ⟨events, htrace, h, fun event hevent => (hpasses event hevent).decides,
    fun event hevent => (hpasses event hevent).blocks, ?_, by simp [hframes]⟩
  exact List.flatMap_eq_nil_iff.mpr fun event hevent => (hpasses event hevent).receivedBytes

/-- Moving bytes inside the receive buffer is no event. -/
theorem Waits.buffer (seq : UInt32) (s : Reliable T C W E N) (rxBuf : Bytes N) (rxLen : Nat)
    (rxDiscarding : Bool) : Waits seq s { s with rxBuf, rxLen, rxDiscarding } [] :=
  ⟨(List.append_nil _).symm, ⟨rfl, rfl, rfl, rfl⟩, by simp, by simp, rfl, fun _ h => by cases h⟩

/-- While a packet waits for its acknowledgement, output is about acknowledgements only. -/
theorem Output.held {cx : W} {budget budget' : Budget} {work : Outcome E}
    (h : Output s cx budget work budget' s') (htx : s.tx = .waiting) :
    Held s s' ∧ Adds Event.Passes s s' := by
  have hstart : ∀ {s₁ : Reliable T C W E N}, Start s s₁ → Held s s₁ ∧ Adds Event.Passes s s₁ := by
    intro s₁ hstart
    cases hstart with
    | going => exact ⟨.refl s, .of_eq rfl⟩
    | ack => exact ⟨⟨rfl, rfl, rfl, rfl⟩, .of_snoc rfl ⟨rfl, rfl, rfl, rfl⟩⟩
    | data _ _ hqueued => simp [htx] at hqueued
  cases h with
  | nothing => exact ⟨.refl s, .of_eq rfl⟩
  | starved h => exact hstart h
  | write h _ _ hwrite =>
      obtain ⟨hheld, hadds⟩ := hstart h
      cases hwrite <;>
        exact ⟨hheld.trans ⟨rfl, rfl, rfl, rfl⟩, hadds.trans (.of_snoc rfl ⟨rfl, rfl, rfl, rfl⟩)⟩
  | flush h _ _ hflush =>
      obtain ⟨hheld, hadds⟩ := hstart h
      cases hflush with
      | sent _ _ _ _ hsending => simp [hheld.tx, htx] at hsending
      | _ => exact ⟨hheld.trans ⟨rfl, rfl, rfl, rfl⟩, hadds.trans (.of_snoc rfl ⟨rfl, rfl, rfl, rfl⟩)⟩

/-! ## Input -/

variable [Target]

/-- A packet that is taken is the acknowledgement of the one in flight, or leaves it alone. -/
theorem Take.held {packet : Packet} {seq : UInt32} (h : Take s packet s') (htx : s.tx ≠ .idle)
    (hseq : seq.toNat + 1 = s.txNext) :
    (packet ≠ .ack s.config.session seq ∧ Held s s' ∧ Adds Event.Passes s s') ∨
      s'.tx = .idle ∧ s'.trace = s.trace ++ [.released seq] := by
  cases h with
  | release seq' _ hseq' =>
      obtain rfl : seq' = seq := UInt32.toNat_inj.mp (by omega)
      exact .inr ⟨rfl, rfl⟩
  | retain => exact .inl ⟨by simp, ⟨rfl, rfl, rfl, rfl⟩, .of_snoc rfl ⟨rfl, rfl, rfl, rfl⟩⟩
  | stale session seq' hnot =>
      refine .inl ⟨fun heq => ?_, .refl s, .of_eq rfl⟩
      cases heq
      exact hnot ⟨rfl, htx, hseq⟩
  | again => exact .inl ⟨by simp, ⟨rfl, rfl, rfl, rfl⟩, .of_eq rfl⟩
  | _ => exact .inl ⟨by simp, .refl s, .of_eq rfl⟩

/-- The packet is released, and nothing is in flight any more. -/
def Releases (seq : UInt32) (s s' : Reliable T C W E N) : Prop :=
  s'.tx = .idle ∧ ∃ events, s'.trace = s.trace ++ events ∧ Released seq events

theorem ProcessFrame.hears {body : List UInt8} {seq : UInt32} (h : ProcessFrame s body s')
    (htx : s.tx ≠ .idle) (hseq : seq.toNat + 1 = s.txNext) :
    (∃ events, Waits seq s s' events) ∨ Releases seq s s' := by
  have hpacket := packetOf_eq body s.scratch
  -- the frame itself, which is no acknowledgement of the packet
  have hframe : ∀ scratch : Bytes N, packetOf N body ≠ some (.ack s.config.session seq) →
      Waits seq s { s.log (.frame body) with scratch } [.frame body] := by
    intro scratch hnone
    refine ⟨rfl, ⟨rfl, rfl, rfl, rfl⟩, ?_, ?_, rfl, ?_⟩
    · simp [Event.decides]
    · simp [Event.blocks]
    · rintro body' hbody'
      obtain rfl : body' = body := by simpa [Event.frame?] using hbody'
      exact hnone
  have hpasses : ∀ (t : Reliable T C W E N) (event : Event W E), event.Passes →
      Held t (t.log event) ∧ Adds Event.Passes t (t.log event) := fun _ _ hevent =>
    ⟨⟨rfl, rfl, rfl, rfl⟩, .of_snoc rfl hevent⟩
  cases h with
  | undecodable hdecode =>
      rw [hdecode] at hpacket
      exact .inl ⟨_, hframe _ (by simp [hpacket])⟩
  | @unparsable decoded scratch hdecode hparse =>
      rw [hdecode] at hpacket
      simp only [hparse, Option.join_some] at hpacket
      left
      obtain ⟨hheld, hadds⟩ := hpasses { s.log (.frame body) with scratch }
        (.decoded (scratch.toList.take decoded.len)) ⟨rfl, rfl, rfl, rfl⟩
      obtain ⟨events, hwaits⟩ := hheld.waits hadds seq
      exact ⟨_, (hframe scratch (by simp [hpacket])).trans hwaits⟩
  | @parsed decoded scratch packet _ hdecode hparse htake =>
      rw [hdecode] at hpacket
      simp only [hparse, Option.join_some] at hpacket
      rcases htake.held htx hseq with ⟨hne, hheld, hadds⟩ | ⟨hidle, htrace⟩
      · left
        obtain ⟨hheld₁, hadds₁⟩ := hpasses { s.log (.frame body) with scratch }
          (.decoded (scratch.toList.take decoded.len)) ⟨rfl, rfl, rfl, rfl⟩
        obtain ⟨hheld₂, hadds₂⟩ := hpasses ({ s.log (.frame body) with scratch }.log
          (.decoded (scratch.toList.take decoded.len))) (.parsed packet) ⟨rfl, rfl, rfl, rfl⟩
        obtain ⟨events, hwaits⟩ :=
          ((hheld₁.trans hheld₂).trans hheld).waits ((hadds₁.trans hadds₂).trans hadds) seq
        refine ⟨_, (hframe scratch fun heq => hne ?_).trans hwaits⟩
        exact Option.some.inj (hpacket.symm.trans heq)
      · right
        refine ⟨hidle, _, ?_, [.frame body, .decoded (scratch.toList.take decoded.len),
          .parsed packet], [], rfl, by simp [Event.decides]⟩
        rw [htrace]
        simp

theorem ProcessInput.hears {seq : UInt32} (h : ProcessInput s s') (htx : s.tx ≠ .idle)
    (hseq : seq.toNat + 1 = s.txNext) : (∃ events, Waits seq s s' events) ∨ Releases seq s s' := by
  induction h with
  | rest s => exact .inl ⟨_, .buffer seq s s.rxBuf s.rxLen s.rxDiscarding⟩
  | overflow s => exact .inl ⟨_, .buffer seq s s.rxBuf 0 true⟩
  | @segment s s₁ s' segment tail rxBuf _ _ _ hsegment hrest ih =>
      have hfirst : (∃ events, Waits seq s s₁ events) ∨ Releases seq s s₁ := by
        cases hsegment with
        | resync => exact .inl ⟨_, .buffer seq s s.rxBuf s.rxLen false⟩
        | skip => exact .inl ⟨_, .buffer seq s s.rxBuf s.rxLen s.rxDiscarding⟩
        | frame _ _ hframe => exact hframe.hears htx hseq
      -- the segment leaves the buffer
      have hshift := Waits.buffer seq s₁ rxBuf tail.length s₁.rxDiscarding
      rcases hfirst with ⟨events, hwaits⟩ | ⟨hidle, events, htrace, hreleased⟩
      · have hbefore := hwaits.trans hshift
        rcases ih (by rw [hbefore.held.tx]; exact htx) (by rw [hbefore.held.txNext]; exact hseq) with
          ⟨events', hwaits'⟩ | ⟨hidle', events', htrace', hreleased'⟩
        · exact .inl ⟨_, hbefore.trans hwaits'⟩
        · right
          refine ⟨hidle', _, ?_, hreleased'.behind hbefore.quiet⟩
          rw [htrace', hbefore.trace, List.append_assoc]
      · -- what is idle stays idle
        right
        obtain ⟨later, hlater, -⟩ := hrest.adds
        refine ⟨?_, _, ?_, hreleased.append later⟩
        · by_contra hbusy
          exact (hrest.turns.flight.2 hbusy) hidle
        · rw [hlater, htrace, List.append_assoc]

/-! ## The allowance -/

/-- A packet whose deadline has passed still waits, and what was read is off its allowance. -/
structure Listening (session : UInt64) (seq : UInt32) (after : List (Event W E))
    (s : Reliable T C W E N) : Prop where
  tx : s.tx = .waiting
  txNext : seq.toNat + 1 = s.txNext
  ofSession : s.config.session = session
  finalInput : s.finalInput = some (finalInputLen N - (received after).length)
  quiet : ∀ event ∈ after, event.decides = false
  unanswered : ∀ body ∈ frames after, packetOf N body ≠ some (.ack session seq)

/-- A packet is waited for no longer: the wait has ended, or the packet is to be sent again. -/
def Dropped (seq : UInt32) (after : List (Event W E)) (s : Reliable T C W E N) : Prop :=
  (∃ event ∈ after, event.settles seq = true) ∨ s.tx = .queued ∧ seq.toNat + 1 = s.txNext

/-- What has become of a packet since it was granted an allowance. -/
inductive Granted (session : UInt64) (seq : UInt32) (after : List (Event W E))
    (s : Reliable T C W E N) : Prop
  | listening (h : Listening session seq after s) (hleft : ¬UsedUp N after)
  | released (h : Released seq after)
  | lapsed (h : UsedUp N after) (hdropped : Dropped seq after s)

section Granted

variable {session : UInt64} {seq : UInt32} {after events : List (Event W E)}

section

omit [Target]

theorem Listening.waits (h : Listening session seq after s) (hwaits : Waits seq s s' events) :
    Listening session seq (after ++ events) s' := by
  have hheld := hwaits.held
  refine ⟨hheld.tx.trans h.tx, h.txNext.trans hheld.txNext.symm, ?_, ?_, ?_, ?_⟩
  · rw [hheld.config, h.ofSession]
  · rw [hheld.finalInput, h.finalInput, received_append, hwaits.received, List.append_nil]
  · intro event hevent
    exact (List.mem_append.mp hevent).elim (h.quiet event) (hwaits.quiet event)
  · intro body hbody
    rw [frames_append] at hbody
    rcases List.mem_append.mp hbody with hbody | hbody
    · exact h.unanswered body hbody
    · rw [← h.ofSession]
      exact hwaits.unanswered body hbody

theorem Waits.unspent (h : Waits seq s s' events) (hleft : ¬UsedUp N after) :
    ¬UsedUp N (after ++ events) := by
  rintro (⟨event, hevent, hblocks⟩ | hlen)
  · rcases List.mem_append.mp hevent with hold | hnew
    · exact hleft (.inl ⟨event, hold, hblocks⟩)
    · simp [h.ready event hnew] at hblocks
  · rw [received_append, h.received, List.append_nil] at hlen
    exact hleft (.inr hlen)

/-- A read comes off the allowance. -/
theorem Listening.read (h : Listening session seq after s) (transport : T) (rxBuf : Bytes N)
    (rxLen : Nat) (cx : W) (free : Nat) (poll : Poll (Except E Nat)) (bytes : List UInt8) :
    Listening session seq (after ++ [.pollRead cx free poll bytes]) ({ s with
      transport, rxBuf, rxLen
      finalInput := s.finalInput.map (· - bytes.length) }.log (.pollRead cx free poll bytes)) := by
  refine ⟨h.tx, h.txNext, h.ofSession, ?_, ?_, ?_⟩
  · simp only [log_finalInput, h.finalInput, Option.map_some, received_append, received_singleton,
      List.length_append, Nat.sub_sub]
    rfl
  · intro event hevent
    rcases List.mem_append.mp hevent with hold | hnew
    · exact h.quiet event hold
    · obtain rfl := List.mem_singleton.mp hnew
      rfl
  · intro body hbody
    rw [frames_append, frames_singleton] at hbody
    exact h.unanswered body (by simpa [Event.frame?] using hbody)

theorem Input.hears [Target] {cx : W} {budget budget' : Budget} {work : Outcome E}
    (h : Input s cx budget work budget' s') (hlistening : Listening session seq after s) :
    ∃ events, s'.trace = s.trace ++ events ∧
      ((∃ event ∈ events, event.blocks = true) ↔ work = .ok .blocked) ∧
        (∀ error, work = .error error → received events = []) ∧
          (Listening session seq (after ++ events) s' ∨
            s'.tx = .idle ∧ Released seq (after ++ events)) := by
  -- a read that gives no bytes
  have hempty : ∀ (transport : T) (rxBuf : Bytes N) (poll : Poll (Except E Nat)),
      Listening session seq (after ++ [.pollRead cx (N - s.rxLen) poll []])
        ({ s with transport, rxBuf }.log (.pollRead cx (N - s.rxLen) poll [])) := by
    intro transport rxBuf poll
    simpa using hlistening.read transport rxBuf s.rxLen cx (N - s.rxLen) poll []
  cases h with
  | starved =>
      refine ⟨[], (List.append_nil _).symm, by simp, by simp, .inl ?_⟩
      rw [List.append_nil]
      exact hlistening
  | pending => exact ⟨_, rfl, by simp [Event.blocks], fun _ _ => rfl, .inl (hempty ..)⟩
  | error => exact ⟨_, rfl, by simp [Event.blocks], fun _ _ => rfl, .inl (hempty ..)⟩
  | eof => exact ⟨_, rfl, by simp [Event.blocks], fun _ _ => rfl, .inl (hempty ..)⟩
  | read transport rxBuf count bytes _ hcount _ _ hprocess =>
      have hread := hlistening.read transport rxBuf (s.rxLen + bytes.length) cx (N - s.rxLen)
        (.ready (.ok count)) bytes
      have hbusy := hread.tx
      -- nothing but the read asks the transport
      obtain ⟨events, htrace, hinput⟩ := hprocess.adds
      refine ⟨.pollRead cx (N - s.rxLen) (.ready (.ok count)) bytes :: events, ?_, ?_, by simp, ?_⟩
      · rw [htrace, log_trace, List.append_assoc, List.singleton_append]
      · constructor
        · rintro ⟨event, hevent, hblocks⟩
          rcases List.mem_cons.mp hevent with rfl | hnew
          · cases hblocks
          · simp [Event.blocks_of_input (hinput event hnew)] at hblocks
        · simp
      · rw [← List.singleton_append, ← List.append_assoc]
        rcases hprocess.hears (by rw [hbusy]; decide) hread.txNext with
          ⟨events', hwaits⟩ | ⟨hidle, events', htrace', hreleased⟩
        · obtain rfl := List.append_cancel_left (hwaits.trace.symm.trans htrace)
          exact .inl (hread.waits hwaits)
        · obtain rfl := List.append_cancel_left (htrace'.symm.trans htrace)
          exact .inr ⟨hidle, hreleased.behind hread.quiet⟩

/-- The timer drops the packet if the allowance is used up, and only then. -/
theorem Listening.timed (h : Listening session seq after s) {cx : W} {input : Work}
    {work : Outcome E} (htimed : Timed s cx input work s')
    (hblocked : (∃ event ∈ after, event.blocks = true) ↔ input = .blocked) :
    ∃ events, s'.trace = s.trace ++ events ∧ frames events = [] ∧
      Granted session seq (after ++ events) s' := by
  -- what is left of the allowance is known from the bytes read since it was granted
  have hspent : ∀ {left}, s.finalInput = some left → input = .blocked ∨ left = 0 → UsedUp N after := by
    intro left hfinal hspent
    rw [h.finalInput, Option.some.injEq] at hfinal
    rcases hspent with hinput | hleft
    · exact .inl (hblocked.mpr hinput)
    · right
      omega
  cases htimed with
  | unarmed htx => exact absurd h.tx htx
  | pending _ _ hfinal => simp [h.finalInput] at hfinal
  | expired _ _ hfinal => simp [h.finalInput] at hfinal
  | timeout left _ hfinal hinput =>
      refine ⟨[.timedOut], rfl, rfl, .lapsed ((hspent hfinal hinput).append _) (.inl ?_)⟩
      exact ⟨.timedOut, by simp, rfl⟩
  | requeue left _ hfinal hinput =>
      refine ⟨[], (List.append_nil _).symm, rfl, .lapsed ((hspent hfinal hinput).append _) ?_⟩
      exact .inr ⟨rfl, h.txNext⟩
  | listening left _ hfinal hinput hleft =>
      refine ⟨[], (List.append_nil _).symm, rfl, ?_⟩
      rw [List.append_nil]
      refine .listening h ?_
      rintro (hblocks | hlen)
      · exact hinput (hblocked.mp hblocks)
      · rw [h.finalInput, Option.some.injEq] at hfinal
        omega

/-- Whether an acknowledgement of the packet is among the frames. -/
def Answered (N : Nat) (session : UInt64) (seq : UInt32) (events : List (Event W E)) : Prop :=
  ∃ body ∈ frames events, packetOf N body = some (.ack session seq)

theorem Listening.not_answered (h : Listening session seq (after ++ events) s) :
    ¬Answered N session seq events := by
  rintro ⟨body, hbody, hpacket⟩
  refine h.unanswered body ?_ hpacket
  rw [frames_append]
  exact List.mem_append_right _ hbody

theorem not_blocks (hleft : ¬UsedUp N after) {event : Event W E} (hevent : event ∈ after) :
    event.blocks = false :=
  Bool.eq_false_iff.mpr fun hblocks => hleft (.inl ⟨event, hevent, hblocks⟩)

theorem Listening.output (h : Listening session seq after s) (hleft : ¬UsedUp N after) {cx : W}
    {budget budget' : Budget} {work : Outcome E} (houtput : Output s cx budget work budget' s') :
    ∃ events, s'.trace = s.trace ++ events ∧ Listening session seq (after ++ events) s' ∧
      ¬UsedUp N (after ++ events) := by
  obtain ⟨hheld, hadds⟩ := houtput.held h.tx
  obtain ⟨events, hwaits⟩ := hheld.waits hadds seq
  exact ⟨events, hwaits.trace, h.waits hwaits, hwaits.unspent hleft⟩

end

/-- Input and timer together: an acknowledgement of the packet releases it, and when the allowance
is used up without one, the packet is dropped. -/
theorem Listening.input (h : Listening session seq after s) (hleft : ¬UsedUp N after) {cx : W}
    {budget budget' : Budget} {input : Work} {work : Outcome E}
    (hinput : Input s cx budget (.ok input) budget' s') (htimed : Timed s' cx input work s'') :
    ∃ events, s''.trace = s.trace ++ events ∧ Granted session seq (after ++ events) s'' ∧
      (Answered N session seq events → s''.tx = .idle ∧ Released seq (after ++ events)) := by
  obtain ⟨events, htrace, hblocks, -, hlistening | ⟨hidle, hreleased⟩⟩ := hinput.hears h
  · -- no earlier read was blocked, or the allowance would be used up
    have hblocked : (∃ event ∈ after ++ events, event.blocks = true) ↔ input = .blocked := by
      rw [show input = .blocked ↔ Except.ok input = (.ok .blocked : Outcome E) by simp, ← hblocks]
      constructor
      · rintro ⟨event, hevent, hpending⟩
        rcases List.mem_append.mp hevent with hold | hnew
        · simp [not_blocks hleft hold] at hpending
        · exact ⟨event, hnew, hpending⟩
      · rintro ⟨event, hevent, hpending⟩
        exact ⟨event, List.mem_append_right _ hevent, hpending⟩
    obtain ⟨events', htrace', hframes, hgranted⟩ := hlistening.timed htimed hblocked
    refine ⟨events ++ events', ?_, ?_, ?_⟩
    · rw [htrace', htrace, List.append_assoc]
    · rw [← List.append_assoc]
      exact hgranted
    · rintro ⟨body, hbody, hpacket⟩
      rw [frames_append, hframes, List.append_nil] at hbody
      exact absurd ⟨body, hbody, hpacket⟩ hlistening.not_answered
  · -- the timer has nothing to wait for
    have hnot : s'.tx ≠ .waiting := by simp [hidle]
    cases htimed with
    | unarmed => exact ⟨events, htrace, .released hreleased, fun _ => ⟨hidle, hreleased⟩⟩
    | _ _ htx => exact absurd htx hnot

theorem Listening.step (h : Listening session seq after s) (hleft : ¬UsedUp N after)
    (hstep : Stepped s s') : ∃ events, s'.trace = s.trace ++ events ∧
      Granted session seq (after ++ events) s' ∧
        (Answered N session seq events → s'.tx = .idle ∧ Released seq (after ++ events)) := by
  obtain ⟨cx, budget, budget', work, hstep⟩ := hstep
  -- a step that gets as far as the timer
  have hfinish : ∀ {budget₁ budget₂ : Budget} {output input : Work} {work : Outcome E}
      {s₁ s₂ s₃ : Reliable T C W E N}, Output s cx budget (.ok output) budget₁ s₁ →
        Input s₁ cx budget₁ (.ok input) budget₂ s₂ → Timed s₂ cx input work s₃ →
          ∃ events, s₃.trace = s.trace ++ events ∧ Granted session seq (after ++ events) s₃ ∧
            (Answered N session seq events → s₃.tx = .idle ∧ Released seq (after ++ events)) := by
    intro budget₁ budget₂ output input work s₁ s₂ s₃ houtput hinput htimed
    obtain ⟨events₁, htrace₁, hlistening, hleft₁⟩ := h.output hleft houtput
    obtain ⟨events₂, htrace₂, hgranted, hanswer⟩ := hlistening.input hleft₁ hinput htimed
    rw [List.append_assoc] at hgranted hanswer
    refine ⟨events₁ ++ events₂, by rw [htrace₂, htrace₁, List.append_assoc], hgranted, ?_⟩
    rintro ⟨body, hbody, hpacket⟩
    rw [frames_append] at hbody
    rcases List.mem_append.mp hbody with hold | hnew
    · exact absurd ⟨body, hold, hpacket⟩ hlistening.not_answered
    · exact hanswer ⟨body, hnew, hpacket⟩
  cases hstep with
  | output houtput =>
      obtain ⟨events, htrace, hlistening, hleft'⟩ := h.output hleft houtput
      exact ⟨events, htrace, .listening hlistening hleft', fun hanswered =>
        absurd hanswered hlistening.not_answered⟩
  | input houtput hinput =>
      obtain ⟨events₁, htrace₁, hlistening₁, hleft₁⟩ := h.output hleft houtput
      obtain ⟨events₂, htrace₂, hblocks, hnothing, hheard⟩ := hinput.hears hlistening₁
      rw [List.append_assoc] at hheard
      refine ⟨events₁ ++ events₂, by rw [htrace₂, htrace₁, List.append_assoc], ?_⟩
      rcases hheard with hlistening | ⟨hidle, hreleased⟩
      · -- a read that fails gives no bytes
        refine ⟨.listening hlistening ?_, fun hanswered => absurd hanswered hlistening.not_answered⟩
        rw [← List.append_assoc]
        rintro (⟨event, hevent, hpending⟩ | hlen)
        · rcases List.mem_append.mp hevent with hold | hnew
          · simp [not_blocks hleft₁ hold] at hpending
          · cases hblocks.mp ⟨event, hnew, hpending⟩
        · rw [received_append, hnothing _ rfl, List.append_nil] at hlen
          exact hleft₁ (.inr hlen)
      · exact ⟨.released hreleased, fun _ => ⟨hidle, hreleased⟩⟩
  | timer houtput hinput htimed => exact hfinish houtput hinput htimed
  | done houtput hinput htimed => exact hfinish houtput hinput htimed

/-- A packet that is to be sent again stays so until it is started or released. -/
theorem Turns.dropped (h : Turns s s') (hqueued : s.tx = .queued) (hseq : seq.toNat + 1 = s.txNext) :
    ∃ events, s'.trace = s.trace ++ events ∧ Dropped seq events s' := by
  induction h with
  | refl => exact ⟨[], (List.append_nil _).symm, .inr ⟨hqueued, hseq⟩⟩
  | @tail t t' _ hturn ih =>
      obtain ⟨events, htrace, hdropped⟩ := ih
      obtain ⟨events', htrace', -⟩ := hturn.inner.adds
      refine ⟨events ++ events', by rw [htrace', htrace, List.append_assoc], ?_⟩
      rcases hdropped with ⟨event, hevent, hsettles⟩ | ⟨htx, hnext⟩
      · exact .inl ⟨event, List.mem_append_left _ hevent, hsettles⟩
      · cases hturn with
        | startData =>
            obtain rfl := List.append_cancel_left htrace'
            refine .inl ⟨_, List.mem_append_right _ (List.mem_singleton_self _), ?_⟩
            simp [Event.settles, ← hnext]
        | release seq' _ _ hseq' =>
            obtain rfl := List.append_cancel_left htrace'
            obtain rfl : seq' = seq := UInt32.toNat_inj.mp (by omega)
            refine .inl ⟨_, List.mem_append_right _ (List.mem_singleton_self _), ?_⟩
            simp [Event.settles]
        | requeue hwaiting => simp [htx] at hwaiting
        -- the flush of an earlier frame does not touch a packet that is queued again
        | flush cx frame =>
            refine .inr ⟨?_, hnext⟩
            show t.txAfterFlush frame = .queued
            simp [txAfterFlush, htx]
        | _ => exact .inr ⟨htx, hnext⟩

/-- A step keeps what has become of the packet. -/
theorem Granted.step (hinv : Inv s) (h : Granted session seq after s) (hstep : Stepped s s') :
    ∃ events, s'.trace = s.trace ++ events ∧ Granted session seq (after ++ events) s' := by
  cases h with
  | listening h hleft =>
      obtain ⟨events, htrace, hgranted, -⟩ := h.step hleft hstep
      exact ⟨events, htrace, hgranted⟩
  | released h =>
      obtain ⟨events, htrace, -⟩ := (covers_stepped.turns hinv hstep).inner.adds
      exact ⟨events, htrace, .released (h.append events)⟩
  | lapsed h hdropped =>
      have hturns := covers_stepped.turns hinv hstep
      obtain ⟨events, htrace, -⟩ := hturns.inner.adds
      refine ⟨events, htrace, .lapsed (h.append events) ?_⟩
      rcases hdropped with ⟨event, hevent, hsettles⟩ | ⟨hqueued, hseq⟩
      · exact .inl ⟨event, List.mem_append_left _ hevent, hsettles⟩
      · obtain ⟨events', htrace', hdropped⟩ := hturns.dropped hqueued hseq
        obtain rfl := List.append_cancel_left (htrace'.symm.trans htrace)
        apply hdropped.imp_left
        rintro ⟨event, hevent, hsettles⟩
        exact ⟨event, List.mem_append_right _ hevent, hsettles⟩

end Granted

/-- No transmission is started in a step in which the packet waits. -/
theorem Stepped.not_transmits (h : Stepped s s') (htx : s.tx = .waiting) :
    Adds (fun event => event.transmits = false) s s' := by
  -- while a packet waits, the output starts acknowledgements only
  have hpasses : ∀ {s₁ : Reliable T C W E N} {cx : W} {budget budget' : Budget} {work : Outcome E},
      Output s cx budget work budget' s₁ → Adds (fun event => event.transmits = false) s s₁ := by
    intro s₁ cx budget budget' work houtput
    refine (houtput.held htx).2.mono fun event hpasses => ?_
    have hdecides := hpasses.decides
    cases event with
    | started kind => cases kind <;> first | rfl | cases hdecides
    | _ => rfl
  have hinput : ∀ {s₁ s₂ : Reliable T C W E N} {cx : W} {budget budget' : Budget}
      {work : Outcome E}, Input s₁ cx budget work budget' s₂ →
        Adds (fun event => event.transmits = false) s₁ s₂ := by
    intro s₁ s₂ cx budget budget' work hinput
    cases hinput with
    | starved => exact .of_eq rfl
    | read transport rxBuf count bytes _ _ _ _ hprocess =>
        refine .trans (.of_snoc rfl rfl) (hprocess.adds.mono fun event hinput => ?_)
        cases event <;> first | rfl | cases hinput
    | _ => exact .of_snoc rfl rfl
  have htimer : ∀ {s₁ s₂ : Reliable T C W E N} {cx : W} {input : Work} {work : Outcome E},
      Timed s₁ cx input work s₂ → Adds (fun event => event.transmits = false) s₁ s₂ := by
    intro s₁ s₂ cx input work htimed
    cases htimed with
    | unarmed => exact .of_eq rfl
    | requeue => exact .of_eq rfl
    | listening => exact .of_eq rfl
    | _ => exact .of_snoc rfl rfl
  obtain ⟨cx, budget, budget', work, hstep⟩ := h
  cases hstep with
  | output hout => exact hpasses hout
  | input hout hin => exact (hpasses hout).trans (hinput hin)
  | timer hout hin htimed => exact ((hpasses hout).trans (hinput hin)).trans (htimer htimed)
  | done hout hin htimed => exact ((hpasses hout).trans (hinput hin)).trans (htimer htimed)

/-- An answer that comes while the allowance lasts releases the packet. -/
theorem Granted.answered {session : UInt64} {seq : UInt32} {after step : List (Event W E)}
    (h : Granted session seq after s) (hleft : ¬UsedUp N after) (hstep : Stepped s s')
    (htrace : s'.trace = s.trace ++ step) (hanswered : Answered N session seq step) :
    Released seq (after ++ step) ∧ (.released seq ∉ after → s'.tx = .idle) := by
  cases h with
  | listening hlistening =>
      obtain ⟨events, htrace', -, hanswer⟩ := hlistening.step hleft hstep
      obtain rfl := List.append_cancel_left (htrace.symm.trans htrace')
      obtain ⟨hidle, hreleased⟩ := hanswer hanswered
      exact ⟨hreleased, fun _ => hidle⟩
  | released hreleased => exact ⟨hreleased.append step, fun hnot => absurd hreleased.mem hnot⟩
  | lapsed hspent => exact absurd hspent hleft

/-- What becomes of the packet once the allowance is used up. -/
theorem Granted.spent {session : UInt64} {seq : UInt32} {after step : List (Event W E)}
    (hinv : Inv s) (h : Granted session seq after s) (hstep : Stepped s s')
    (htrace : s'.trace = s.trace ++ step) (hspent : UsedUp N (after ++ step)) :
    .released seq ∈ after ++ step ∨ .timedOut ∈ after ++ step ∨
      s'.tx = .queued ∧ seq.toNat + 1 = s'.txNext ∨
        UsedUp N after ∧ 0 < transmissions seq (after ++ step) := by
  obtain ⟨events, htrace', hgranted⟩ := h.step hinv hstep
  obtain rfl := List.append_cancel_left (htrace.symm.trans htrace')
  cases hgranted with
  | listening _ hleft => exact absurd hspent hleft
  | released hreleased => exact .inl hreleased.mem
  | lapsed _ hdropped =>
      rcases hdropped with ⟨event, hevent, hsettles⟩ | hqueued
      · unfold Event.settles at hsettles
        split at hsettles
        · exact .inr (.inl hevent)
        · obtain rfl := (of_decide_eq_true hsettles).symm
          exact .inl hevent
        · obtain rfl := (of_decide_eq_true hsettles).symm
          -- a transmission, which is not started while the packet waits
          have hsent : 0 < transmissions seq (after ++ step) :=
            List.countP_pos_iff.mpr ⟨_, hevent, by simp [Event.sends]⟩
          cases h with
          | listening hlistening =>
              exfalso
              rcases List.mem_append.mp hevent with hold | hnew
              · cases hlistening.quiet _ hold
              · obtain ⟨events, htrace', hnone⟩ := hstep.not_transmits hlistening.tx
                obtain rfl := List.append_cancel_left (htrace.symm.trans htrace')
                cases hnone _ hnew
          | released hreleased => exact .inl (hreleased.append step).mem
          | lapsed hspent => exact .inr (.inr (.inr ⟨hspent, hsent⟩))
        · cases hsettles
      · exact .inr (.inr (.inl hqueued))

/-! ## Runs -/

/-- What a connection that is well behind it was well before; apart from its steps, it takes a packet
when none is in flight, and otherwise leaves the packet in flight alone. -/
theorem Beat.healthy {R : Reliable T C W E N → Reliable T C W E N → Prop} (h : Beat R s s')
    (hhealth : s'.health = .ok) : s.health = .ok ∧
      (R s s' ∨ (s.tx = .idle ∧ Adds (fun _ => True) s s') ∨ Held s s' ∧ Adds Event.Passes s s') := by
  cases h with
  | inside hok hinside => exact ⟨hok, .inl hinside⟩
  | note event haside =>
      refine ⟨hhealth, .inr (.inr ⟨⟨rfl, rfl, rfl, rfl⟩, .of_snoc rfl ?_⟩)⟩
      cases event <;> first | exact ⟨rfl, rfl, rfl, rfl⟩ | cases haside
  | fail error =>
      rw [fail_eq] at hhealth
      cases hold : s.health <;> simp [hold] at hhealth
  | report => cases hhealth
  | queue payload scratch txFrame txLen hok hready =>
      exact ⟨hok, .inr (.inl ⟨(writeReady_iff.mp hready).1, .of_snoc rfl trivial⟩)⟩
  | deliver => exact ⟨hhealth, .inr (.inr ⟨⟨rfl, rfl, rfl, rfl⟩, .of_snoc rfl ⟨rfl, rfl, rfl, rfl⟩⟩)⟩
  | wake hwoken =>
      obtain ⟨waiters, wakes, rfl, hwakes⟩ := hwoken
      refine ⟨hhealth, .inr (.inr ⟨⟨rfl, rfl, rfl, rfl⟩, wakes, rfl, fun event hevent => ?_⟩)⟩
      obtain ⟨op, waker, rfl⟩ := hwakes event hevent
      exact ⟨rfl, rfl, rfl, rfl⟩
  | environment => exact ⟨hhealth, .inr (.inr ⟨⟨rfl, rfl, rfl, rfl⟩, .of_eq rfl⟩)⟩

theorem Granted.beat {session : UInt64} {seq : UInt32} {after : List (Event W E)} (hinv : Inv s)
    (h : Granted session seq after s) (hbeat : Beat Stepped s s') (hhealth : s'.health = .ok) :
    ∃ events, s'.trace = s.trace ++ events ∧ Granted session seq (after ++ events) s' := by
  -- a step, a new packet with nothing in flight, or something that leaves the packet alone
  rcases (hbeat.healthy hhealth).2 with hstep | ⟨hidle, events, htrace, -⟩ | ⟨hheld, hadds⟩
  · exact h.step hinv hstep
  · refine ⟨events, htrace, ?_⟩
    cases h with
    | listening h => simp [h.tx] at hidle
    | released h => exact .released (h.append events)
    | lapsed h hdropped =>
        rcases hdropped with ⟨event, hevent, hsettles⟩ | ⟨hqueued, -⟩
        · exact .lapsed (h.append events) (.inl ⟨event, List.mem_append_left _ hevent, hsettles⟩)
        · simp [hqueued] at hidle
  · obtain ⟨events, hwaits⟩ := hheld.waits hadds seq
    refine ⟨events, hwaits.trace, ?_⟩
    cases h with
    | listening h hleft => exact .listening (h.waits hwaits) (hwaits.unspent hleft)
    | released h => exact .released (h.append events)
    | lapsed h hdropped =>
        refine .lapsed (h.append events) ?_
        rcases hdropped with ⟨event, hevent, hsettles⟩ | ⟨hqueued, hseq⟩
        · exact .inl ⟨event, List.mem_append_left _ hevent, hsettles⟩
        · exact .inr ⟨hheld.tx.trans hqueued, hseq.trans hheld.txNext.symm⟩

/-- The packet in flight when an allowance is granted, in every continuation. -/
theorem Visited.granted (h : Visited Stepped s) {seq : UInt32} (htx : s.tx = .waiting)
    (hfinal : s.finalInput = some (finalInputLen N)) (hseq : seq.toNat + 1 = s.txNext)
    (hbeats : Beats Stepped s s') (hhealth : s'.health = .ok) :
    ∃ after, s'.trace = s.trace ++ after ∧ Granted s.config.session seq after s' := by
  induction hbeats with
  | refl =>
      refine ⟨[], (List.append_nil _).symm, .listening ⟨htx, hseq, rfl, hfinal, by simp,
        fun _ hbody => absurd hbody List.not_mem_nil⟩ ?_⟩
      simp [UsedUp, finalInputLen, ackFrameLen, received]
  | tail hbefore hlast ih =>
      obtain ⟨hok, -⟩ := hlast.healthy hhealth
      obtain ⟨after, htrace, hgranted⟩ := ih hok
      have hinv := ((h.beats hbefore).through covers_stepped).inv
      obtain ⟨events, htrace', hgranted'⟩ := hgranted.beat hinv hlast hhealth
      exact ⟨after ++ events, by rw [htrace', htrace, List.append_assoc], hgranted'⟩

/-- A packet that was released is not sent again. -/
theorem Visited.not_resent (h : Visited Stepped s) {before after : List (Event W E)} {seq : UInt32}
    {bytes : List UInt8} (htrace : s.trace = before ++ .started .data seq bytes :: after) :
    .released seq ∉ before := by
  obtain ⟨transport, timer, config, hN, hmoves⟩ := h.moves covers_stepped
  obtain ⟨s₁, s₂, hthrough, hmove, -, rfl, hs₂⟩ := hmoves.through_event hN htrace
  intro hreleased
  -- the last packet is queued, so that it is not released
  obtain ⟨-, ⟨hkind, -⟩ | ⟨-, htx, rfl, -⟩⟩ := hmove.of_started hs₂
  · cases hkind
  · have hbusy : s₁.tx ≠ .idle := by simp [htx]
    have hlast := hthrough.last_seq hbusy
    rcases hthrough.history.released _ hreleased with hearlier | ⟨-, hidle⟩
    · omega
    · exact hbusy hidle

/-- Of a packet that is released no transmission is started, before or behind its release. -/
theorem Visited.no_transmission (h : Visited Stepped s) {front events : List (Event W E)}
    {seq : UInt32} (htrace : s.trace = front ++ events) (hreleased : Released seq events) :
    transmissions seq events = 0 := by
  rw [transmissions_eq_zero]
  intro event hevent hsends
  obtain ⟨bytes, rfl⟩ := Event.exists_of_sends hsends
  obtain ⟨before, rest, rfl⟩ := List.append_of_mem hevent
  have hbefore := hreleased.before rfl (by simp)
  -- it would be sent behind its release
  rw [← List.append_assoc] at htrace
  exact h.not_resent htrace (List.mem_append_right _ hbefore)

theorem Beat.receives (h : Beat Stepped s s') : Receives s s' := by
  cases h with
  | inside _ hstep =>
      obtain ⟨_, _, _, _, hstep⟩ := hstep
      exact hstep.receives
  | note event haside =>
      apply Receives.log (.refl s) event
      · cases event <;> first | rfl | cases haside
      · cases event <;> first | rfl | cases haside
  | fail error =>
      rw [fail_eq]
      exact SameInput.receives ⟨rfl, rfl, rfl, rfl, rfl⟩
  | report => exact SameInput.receives ⟨rfl, rfl, rfl, rfl, rfl⟩
  | queue => exact SameInput.receives ⟨rfl, rfl, rfl, by simp [Event.receivedBytes], by simp [Event.frame?]⟩
  | deliver => exact SameInput.receives ⟨rfl, rfl, rfl, by simp [Event.receivedBytes], by simp [Event.frame?]⟩
  | wake hwoken => exact hwoken.sameInput.receives
  | environment => exact SameInput.receives ⟨rfl, rfl, rfl, rfl, rfl⟩

theorem Visited.framing (h : Visited Stepped s) : Settled s ∧ Framing s := by
  obtain ⟨transport, timer, config, hN, hbeats⟩ := h
  induction hbeats with
  | refl => exact ⟨settled_initial hN transport timer config, framing_initial hN transport timer config⟩
  | tail _ hlast ih =>
      obtain ⟨hsettled, hframing⟩ := ih
      exact ⟨hsettled.receives hlast.receives, hframing.receives hsettled hlast.receives⟩

/-- A frame is processed in the step that reads its delimiter. -/
theorem Visited.processes (h : Visited Stepped s) (hstep : Stepped s s')
    {step : List (Event W E)} (htrace : s'.trace = s.trace ++ step) {front rest body : List UInt8}
    (hreceived : received step = front ++ 0 :: rest)
    (hbody : Segments.frames 0 N (received s.trace ++ front ++ [0]) =
      Segments.frames 0 N (received s.trace ++ front) ++ [body]) : body ∈ frames step := by
  obtain ⟨hsettled, hframing⟩ := h.framing
  obtain ⟨_, _, _, _, hrun⟩ := hstep
  have hframing' := hframing.receives hsettled hrun.receives
  obtain ⟨before, hbefore⟩ := Segments.exists_frames_append (d := 0) N (received s.trace) front
  obtain ⟨later, hlater⟩ :=
    Segments.exists_frames_append (d := 0) N (received s.trace ++ front ++ [0]) rest
  have hstream : received s'.trace = received s.trace ++ front ++ [0] ++ rest := by
    rw [htrace, received_append, hreceived]
    simp
  have hframes := hframing'.frames_eq
  rw [hstream, hlater, hbody, hbefore, ← hframing.frames_eq, htrace, frames_append,
    List.append_assoc, List.append_assoc] at hframes
  rw [List.append_cancel_left hframes]
  simp

/-- What an allowance for final input that was granted to packet `seq` comes to, in every
continuation; behind an error there is no other step. -/
structure FinalInput (s : Reliable T C W E N) (seq : UInt32) : Prop where
  /-- An acknowledgement that ends within the allowance releases the packet, in the step that reads
  its delimiter at the latest, when the input has not blocked before. -/
  honoured : ∀ s₁ s₂ after step front rest body, Beats Stepped s s₁ → s₁.health = .ok →
    Stepped s₁ s₂ → s₁.trace = s.trace ++ after → s₂.trace = s₁.trace ++ step →
      received step = front ++ 0 :: rest →
      Segments.frames 0 N (received s₁.trace ++ front ++ [0]) =
        Segments.frames 0 N (received s₁.trace ++ front) ++ [body] →
      packetOf N body = some (.ack s.config.session seq) →
      (received after).length + front.length + 1 ≤ finalInputLen N →
      (∀ event ∈ after, event.blocks = false) →
        transmissions seq (after ++ step) = 0 ∧
        (∀ before rest, after ++ step = before ++ .timedOut :: rest → .released seq ∈ before) ∧
        .released seq ∈ after ++ step ∧ (.released seq ∉ after → s₂.tx = .idle)
  /-- In the step in which the allowance is used up the packet is released, given up or queued to be
  sent again; behind it, it may have been started again. -/
  bounded : ∀ s₁ s₂ after step, Beats Stepped s s₁ → s₁.health = .ok → Stepped s₁ s₂ →
    s₁.trace = s.trace ++ after → s₂.trace = s₁.trace ++ step → UsedUp N (after ++ step) →
      .released seq ∈ after ++ step ∨ .timedOut ∈ after ++ step ∨
        s₂.tx = .queued ∧ seq.toNat + 1 = s₂.txNext ∨
          UsedUp N after ∧ 0 < transmissions seq (after ++ step)

theorem Visited.final_input (h : Visited Stepped s) {seq : UInt32} (htx : s.tx = .waiting)
    (hfinal : s.finalInput = some (finalInputLen N)) (hseq : seq.toNat + 1 = s.txNext) :
    FinalInput s seq := by
  refine ⟨fun s₁ s₂ after step front rest body hbeats hhealth hstep htrace₁ htrace₂ hreceived hbody
    hpacket hlen hready => ?_, fun s₁ s₂ after step hbeats hhealth hstep htrace₁ htrace₂ hspent => ?_⟩
  · obtain ⟨after', htrace', hgranted⟩ := h.granted htx hfinal hseq hbeats hhealth
    obtain rfl := List.append_cancel_left (htrace₁.symm.trans htrace')
    have hvisited := h.beats hbeats
    have hleft : ¬UsedUp N after := by
      rintro (⟨event, hevent, hblocks⟩ | hover)
      · simp [hready event hevent] at hblocks
      · omega
    have hanswered : Answered N s.config.session seq step :=
      ⟨body, hvisited.processes hstep htrace₂ hreceived hbody, hpacket⟩
    obtain ⟨hreleased, hidle⟩ := hgranted.answered hleft hstep htrace₂ hanswered
    have hvisited₂ : Visited Stepped s₂ := hvisited.beats (.of_beat (.inside hhealth hstep))
    have htrace : s₂.trace = s.trace ++ (after ++ step) := by
      rw [htrace₂, htrace₁, List.append_assoc]
    refine ⟨hvisited₂.no_transmission htrace hreleased, fun before rest hsplit => ?_, hreleased.mem,
      hidle⟩
    rw [hsplit] at hreleased
    exact hreleased.before rfl (by simp)
  · obtain ⟨after', htrace', hgranted⟩ := h.granted htx hfinal hseq hbeats hhealth
    obtain rfl := List.append_cancel_left (htrace₁.symm.trans htrace')
    have hinv := ((h.beats hbeats).through covers_stepped).inv
    exact hgranted.spent hinv hstep htrace₂ hspent

omit [Target] in
/-- The acknowledgement of a packet comes in right behind its deadline. -/
theorem final_input_ack : letI := target64
    ∃ (s₁ s₂ s₃ : Reliable Link FakeClock Nat MockError 21) (events : List (Event Nat MockError)),
      FinalInput s₁ 0 ∧ Beats Stepped s₁ s₂ ∧ Stepped s₂ s₃ ∧ s₂.trace = s₁.trace ∧
        s₃.trace = s₂.trace ++ events ∧ transmissions 0 events = 0 ∧ .released 0 ∈ events ∧
          s₃.tx = .idle := by
  let := target64
  let arriving := (Packet.ack 7 0).frame
  obtain ⟨s₀, hs₀⟩ := Option.isSome_iff_exists.mp (show ((testConnection []).calls
    [.write 1 [5]]).isSome by decide +kernel)
  have hreachable := reachable_testConnection hs₀
  have hsound := hreachable.sound
  -- the deadline passes, and the next step grants the allowance
  have hlate : Visited Stepped { s₀ with timer := FakeClock.mk 10 } :=
    (hreachable.visited covers_stepped).beats (.of_beat (.environment s₀.transport (FakeClock.mk 10)))
  obtain ⟨⟨work₁, budget₁, s₁⟩, hrun₁, hstep₁⟩ := step_returns hsound.fits
    (hlate.through covers_stepped).inv hlate.framing.1 1 Budget.new
  have hhealth₀ : s₀.health = .ok := by
    have hhealth : ((testConnection []).calls [.write 1 [5]]).map (fun s => s.health) = some .ok := by
      decide +kernel
    rw [hs₀] at hhealth
    exact Option.some.inj hhealth
  have hhealth₁ : s₁.health = .ok :=
    (hstep₁.turns (hlate.through covers_stepped).inv).inner.health.trans hhealth₀
  have hvisited : Visited Stepped s₁ :=
    hlate.beats (.of_beat (.inside hhealth₀ ⟨1, .new, budget₁, work₁, hstep₁⟩))
  -- then the acknowledgement comes in
  have hbeats : Beats Stepped s₁ { s₁ with transport := Link.holding arriving } :=
    .of_beat (.environment _ s₁.timer)
  have hafter := hvisited.beats hbeats
  obtain ⟨⟨work₃, budget₃, s₃⟩, hrun₃, hstep₃⟩ := step_returns hsound.fits
    (hafter.through covers_stepped).inv hafter.framing.1 1 Budget.new
  have hstepped : Stepped { s₁ with transport := Link.holding arriving } s₃ := ⟨_, _, _, _, hstep₃⟩
  obtain ⟨events, htrace, -⟩ := (hstep₃.turns (hafter.through covers_stepped).inv).inner.adds
  have hstate : (((testConnection []).calls [.write 1 [5]]).bind fun s₀ =>
      (step { s₀ with timer := FakeClock.mk 10 } 1 Budget.new).bind fun r =>
        (step { r.2.2 with transport := Link.holding arriving } 1 Budget.new).map fun r' =>
          ((r.2.2.tx, r.2.2.finalInput, r.2.2.txNext), r.2.2.config.session,
            received r.2.2.trace, received r'.2.2.trace)) =
              some ((Tx.waiting, some 41, 1), 7, [], arriving) := by
    decide +kernel
  rw [hs₀, Option.bind_some, hrun₁, Option.bind_some, hrun₃, Option.map_some] at hstate
  simp only [Option.some.injEq, Prod.mk.injEq] at hstate
  obtain ⟨⟨htx, hfinal, hnext⟩, hsession, hbefore, hreceived⟩ := hstate
  have hgranted : FinalInput s₁ 0 := hvisited.final_input htx hfinal (by rw [hnext]; rfl)
  have hread : received events = arriving.dropLast ++ 0 :: [] := by
    rw [htrace, received_append, hbefore, List.nil_append] at hreceived
    rw [hreceived]
    decide +kernel
  obtain ⟨hsent, -, hreleased, hidle⟩ := hgranted.honoured _ s₃ [] events arriving.dropLast []
    arriving.tail.dropLast hbeats hhealth₁ hstepped (List.append_nil _).symm htrace hread
    (by rw [hbefore]; decide +kernel) (by rw [hsession]; decide +kernel) (by decide +kernel) (by simp)
  exact ⟨s₁, _, s₃, events, hgranted, hbeats, hstepped, rfl, htrace, hsent, hreleased, hidle (by simp)⟩

end Reliable

end CobsIoAsync.Connection
