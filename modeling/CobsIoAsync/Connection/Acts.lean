import CobsIoAsync.Connection.Output
import CobsIoAsync.Connection.Pending

/-!
# Connection.Acts — a run, one act at a time

A move says what becomes of packets and frames and forgets which function made it.  Here a run is
taken apart the other way: a step of `drive` is a sequence of acts, each of which is one branch of
the code with everything that it reads, and a run is a sequence of beats, each of them an act or one
of the things that the public methods do around a step.
-/

namespace CobsIoAsync.Connection

open Reasoning Protocol

/-- Events of the loop of `drive` and of the public methods that come with no other change. -/
def Event.aside {W E : Type} : Event W E → Bool
  | .step | .stepped _ | .wakeByRef _ | .exhausted | .returned .. => true
  | _ => false

/-- Events of the public methods that have nothing to do with packets and frames. -/
def Event.apart {W E : Type} : Event W E → Bool
  | .delivered _ | .wake .. => true
  | event => event.aside

theorem Event.silent_of_aside {W E : Type} {event : Event W E} (h : event.aside) :
    event.quiet ∨ event.outer := by
  cases event <;> simp_all [Event.aside, Event.quiet, Event.outer]

/-- An event of a trace that grew is in the old part or in the new one. -/
theorem split_append {α : Type} {t u before after : List α} {e : α}
    (h : t ++ u = before ++ e :: after) :
    (∃ rest, t = before ++ e :: rest ∧ after = rest ++ u) ∨
      ∃ front, before = t ++ front ∧ u = front ++ e :: after := by
  rcases List.append_eq_append_iff.mp h with ⟨front, hbefore, hu⟩ | ⟨rest, ht, hafter⟩
  · exact .inr ⟨front, hbefore, hu⟩
  · cases rest with
    | nil => exact .inr ⟨[], by simpa using ht.symm, by simpa using hafter.symm⟩
    | cons e' rest =>
        obtain ⟨rfl, rfl⟩ := List.cons.inj hafter
        exact .inl ⟨rest, ht, rfl⟩

theorem split_concat {α : Type} {t before after : List α} {e last : α}
    (h : t ++ [last] = before ++ e :: after) :
    (∃ rest, t = before ++ e :: rest ∧ after = rest ++ [last]) ∨
      before = t ∧ e = last ∧ after = [] := by
  rcases split_append h with hold | ⟨front, rfl, hlast⟩
  · exact .inl hold
  · cases front with
    | nil =>
        obtain ⟨rfl, rfl⟩ := List.cons.inj hlast
        exact .inr ⟨List.append_nil t, rfl, rfl⟩
    | cons _ front => simp at hlast

/-- A trace is split in one way at the last event of a kind. -/
theorem split_unique {α : Type} {p : α → Prop} {before before' after after' : List α} {e e' : α}
    (h : before ++ e :: after = before' ++ e' :: after') (he : p e) (he' : p e')
    (hafter : ∀ x ∈ after, ¬p x) (hafter' : ∀ x ∈ after', ¬p x) :
    before = before' ∧ e = e' ∧ after = after' := by
  -- If one split were the longer, its event would stand after the other's, where none does.
  rcases split_append h with ⟨rest, -, rfl⟩ | ⟨front, rfl, hsplit⟩
  · exact absurd he (hafter' e (by simp))
  · cases front with
    | nil =>
        obtain ⟨rfl, rfl⟩ := List.cons.inj hsplit
        exact ⟨(List.append_nil _).symm, rfl, rfl⟩
    | cons x front =>
        obtain ⟨rfl, rfl⟩ := List.cons.inj hsplit
        exact absurd he' (hafter e' (by simp))

namespace Reliable

variable {T C W E : Type} {N : Nat} {s s' s'' : Reliable T C W E N}
variable [Target]

/-! ## Acts -/

/-- One thing that happens inside `step`. -/
inductive Act (s : Reliable T C W E N) : Reliable T C W E N → Prop
  /-- Bytes are moved inside the receive buffer, or dropped from it. -/
  | buffer (rxBuf : Bytes N) (rxLen : Nat) (rxDiscarding : Bool) :
      Act s { s with rxBuf, rxLen, rxDiscarding }
  | start {s' : Reliable T C W E N} (h : Start s s') : Act s s'
  | write {cx : W} {frame : Frame} {offset : Nat} {work : Outcome E} {s' : Reliable T C W E N}
      (hout : s.out = .writing frame offset) (h : WriteFrame s cx frame offset work s') : Act s s'
  | flush {cx : W} {frame : Frame} {work : Outcome E} {s' : Reliable T C W E N}
      (hout : s.out = .flushing frame) (h : FlushFrame s cx frame work s') : Act s s'
  /-- A read that gives no bytes. -/
  | ask (transport : T) (rxBuf : Bytes N) (cx : W) (poll : Poll (Except E Nat))
      (hpoll : ∀ count, poll = .ready (.ok count) → count = 0) :
      Act s ({ s with transport, rxBuf }.log (.pollRead cx (N - s.rxLen) poll []))
  | read (transport : T) (rxBuf : Bytes N) (cx : W) (count : Nat) (bytes : List UInt8)
      (hcount : count ≠ 0) (hbytes : bytes.length = min count (N - s.rxLen)) :
      Act s ({ s with
        transport, rxBuf, rxLen := s.rxLen + bytes.length
        finalInput := s.finalInput.map (· - bytes.length) }.log
          (.pollRead cx (N - s.rxLen) (.ready (.ok count)) bytes))
  /-- A frame is processed, which was in the receive buffer in front of a delimiter. -/
  | frame {body : List UInt8} {s' : Reliable T C W E N} (hne : body ≠ []) (hzero : 0 ∉ body)
      (hlen : body.length < N) (h : ProcessFrame s body s') : Act s s'
  | timer {cx : W} {input : Work} {work : Outcome E} {s' : Reliable T C W E N}
      (h : Timed s cx input work s') : Act s s'

/-- Any number of acts. -/
def Acts : Reliable T C W E N → Reliable T C W E N → Prop := Relation.ReflTransGen Act

namespace Acts

theorem refl (s : Reliable T C W E N) : Acts s s := Relation.ReflTransGen.refl

theorem trans (h : Acts s s') (h' : Acts s' s'') : Acts s s'' := Relation.ReflTransGen.trans h h'

theorem of_act (h : Act s s') : Acts s s' := .single h

end Acts

theorem Output.acts {cx : W} {budget budget' : Budget} {work : Outcome E}
    (h : Output s cx budget work budget' s') : Acts s s' := by
  cases h with
  | nothing => exact .refl s
  | starved hstart => exact .of_act (.start hstart)
  | write hstart _ hout hwrite => exact (Acts.of_act (.start hstart)).trans (.of_act (.write hout hwrite))
  | flush hstart _ hout hflush => exact (Acts.of_act (.start hstart)).trans (.of_act (.flush hout hflush))

theorem ProcessInput.acts (h : ProcessInput s s') : Acts s s' := by
  induction h with
  | rest s => exact .refl s
  | overflow s => exact .of_act (.buffer s.rxBuf 0 true)
  | @segment s s₁ s' segment tail rxBuf hbuffered hzero htail hsegment hrest ih =>
      have hshift : Acts s₁ { s₁ with rxBuf, rxLen := tail.length } :=
        .of_act (.buffer rxBuf tail.length s₁.rxDiscarding)
      refine Acts.trans ?_ (hshift.trans ih)
      cases hsegment with
      | resync => exact .of_act (.buffer s.rxBuf s.rxLen false)
      | skip => exact .refl s
      | frame _ hne hframe =>
          -- the segment and its delimiter are in a buffer of `N` bytes
          have hlen : s.buffered.length ≤ N := by simp [buffered]
          rw [hbuffered, List.length_append, List.length_cons] at hlen
          exact .of_act (.frame hne hzero (by omega) hframe)

theorem Input.acts {cx : W} {budget budget' : Budget} {work : Outcome E}
    (h : Input s cx budget work budget' s') : Acts s s' := by
  cases h with
  | starved => exact .refl s
  | pending transport rxBuf => exact .of_act (.ask transport rxBuf cx _ (by simp))
  | error transport rxBuf => exact .of_act (.ask transport rxBuf cx _ (by simp))
  | eof transport rxBuf => exact .of_act (.ask transport rxBuf cx _ (by simp))
  | read transport rxBuf count bytes _ hcount hbytes _ hprocess =>
      exact (Acts.of_act (.read transport rxBuf cx count bytes hcount hbytes)).trans hprocess.acts

theorem Step.acts {cx : W} {budget budget' : Budget} {work : Outcome E}
    (h : Step s cx budget work budget' s') : Acts s s' := by
  cases h with
  | output houtput => exact houtput.acts
  | input houtput hinput => exact houtput.acts.trans hinput.acts
  | timer houtput hinput htimer =>
      exact (houtput.acts.trans hinput.acts).trans (.of_act (.timer htimer))
  | done houtput hinput htimer =>
      exact (houtput.acts.trans hinput.acts).trans (.of_act (.timer htimer))

theorem Act.turns (hinv : Inv s) (h : Act s s') : Turns s s' := by
  have hread : ∀ (transport : T) (rxBuf : Bytes N) (rxLen : Nat),
      Turns s { s with transport, rxBuf, rxLen } := fun transport rxBuf rxLen =>
    (Turns.transport s transport).trans (.buffer { s with transport } rxBuf rxLen s.rxDiscarding)
  cases h with
  | buffer rxBuf rxLen rxDiscarding => exact .buffer s rxBuf rxLen rxDiscarding
  | start h => exact h.turns
  | write hout h => exact h.turns hout
  | flush hout h => exact h.turns hout
  | ask transport rxBuf cx poll => exact (hread transport rxBuf s.rxLen).note _ rfl
  | read transport rxBuf cx count bytes =>
      have hallow := (hread transport rxBuf (s.rxLen + bytes.length)).tail
        (.allow _ (s.finalInput.map (· - bytes.length)) (by simpa using hinv.waiting_of_final))
      exact hallow.note _ rfl
  | frame _ _ _ h => exact h.turns
  | timer h => exact h.turns

/-- An act starts a frame, processes one, or has to do with neither. -/
theorem Act.cases (h : Act s s') : Start s s' ∨
    (∃ body, body ≠ [] ∧ 0 ∉ body ∧ body.length < N ∧ ProcessFrame s body s') ∨
      (s'.ackPending = s.ackPending ∧
        Adds (fun event => event.input = false ∧ event.started? = none) s s') := by
  cases h with
  | start h => exact .inl h
  | frame hne hzero hlen h => exact .inr (.inl ⟨_, hne, hzero, hlen, h⟩)
  | buffer => exact .inr (.inr ⟨rfl, .of_eq rfl⟩)
  | ask => exact .inr (.inr ⟨rfl, .of_snoc rfl ⟨rfl, rfl⟩⟩)
  | read => exact .inr (.inr ⟨rfl, .of_snoc rfl ⟨rfl, rfl⟩⟩)
  | write _ h => cases h <;> exact .inr (.inr ⟨rfl, .of_snoc rfl ⟨rfl, rfl⟩⟩)
  | flush _ h =>
      cases h with
      | sent =>
          exact .inr (.inr ⟨rfl, _, List.append_assoc .., by simp [Event.input, Event.started?]⟩)
      | _ => exact .inr (.inr ⟨rfl, .of_snoc rfl ⟨rfl, rfl⟩⟩)
  | timer h =>
      cases h with
      | unarmed => exact .inr (.inr ⟨rfl, .of_eq rfl⟩)
      | listening => exact .inr (.inr ⟨rfl, .of_eq rfl⟩)
      | requeue => exact .inr (.inr ⟨rfl, .of_eq rfl⟩)
      | _ => exact .inr (.inr ⟨rfl, .of_snoc rfl ⟨rfl, rfl⟩⟩)

/-- An act adds events of the inside of a step. -/
theorem Act.adds (h : Act s s') : Adds (fun event => event.ofStep) s s' := by
  cases h with
  | buffer => exact .of_eq rfl
  | ask => exact .of_snoc rfl rfl
  | read => exact .of_snoc rfl rfl
  | start h =>
      cases h with
      | going => exact .of_eq rfl
      | _ => exact .of_snoc rfl rfl
  | write _ h => cases h <;> exact .of_snoc rfl rfl
  | flush _ h =>
      cases h with
      | sent => exact ⟨_, List.append_assoc .., by simp [Event.ofStep, Event.inner]⟩
      | _ => exact .of_snoc rfl rfl
  -- everything that is recorded of a frame belongs to the input
  | frame _ _ _ h =>
      refine h.adds.mono fun event hinput => ?_
      cases event <;> first | rfl | cases hinput
  | timer h =>
      cases h with
      | unarmed => exact .of_eq rfl
      | listening => exact .of_eq rfl
      | requeue => exact .of_eq rfl
      | _ => exact .of_snoc rfl rfl

theorem Acts.adds (h : Acts s s') : Adds (fun event => event.ofStep) s s' := by
  induction h with
  | refl => exact .of_eq rfl
  | tail _ hact ih => exact ih.trans hact.adds

/-- An act processes a frame, or has nothing to do with received frames. -/
theorem Act.frame_or (h : Act s s') :
    (∃ body, body ≠ [] ∧ 0 ∉ body ∧ body.length < N ∧ ProcessFrame s body s') ∨
      Adds (fun event => event.input = false) s s' := by
  rcases h.cases with hstart | hframe | ⟨-, hadds⟩
  · cases hstart with
    | going => exact .inr (.of_eq rfl)
    | _ => exact .inr (.of_snoc rfl rfl)
  · exact .inl hframe
  · exact .inr (hadds.mono fun _ hevent => hevent.1)

/-! ## Beats -/

/-- A whole step of `drive`. -/
def Stepped (s s' : Reliable T C W E N) : Prop :=
  ∃ (cx : W) (budget budget' : Budget) (work : Outcome E), Step s cx budget work budget' s'

/-- One thing that happens in a run, where `R` is what happens inside `step`. -/
inductive Beat (R : Reliable T C W E N → Reliable T C W E N → Prop) (s : Reliable T C W E N) :
    Reliable T C W E N → Prop
  | inside {s' : Reliable T C W E N} (hhealth : s.health = .ok) (h : R s s') : Beat R s s'
  | note (event : Event W E) (h : event.aside) : Beat R s (s.log event)
  | fail (error : ConnectionError E) : Beat R s (s.fail error)
  | report (hhealth : s.health ≠ .ok) : Beat R s { s with health := .reported }
  /-- `queue_packet` encodes a packet. -/
  | queue (payload : List UInt8) (scratch txFrame : Bytes N) (txLen : Nat)
      (hhealth : s.health = .ok) (hready : s.writeReady) (hnext : s.txNext ≤ u32Max)
      (hne : payload ≠ []) (hpayload : payload.length ≤ maxPayload N)
      (hlen : txLen = (Packet.data s.config.session (UInt32.ofNat s.txNext) payload).frame.length)
      (hframe : txFrame.toList.take txLen =
        (Packet.data s.config.session (UInt32.ofNat s.txNext) payload).frame) :
      Beat R s ({ s with
        scratch, txFrame, txLen, txNext := s.txNext + 1, txRetries := 0, tx := .queued }.log
          (.queued (UInt32.ofNat s.txNext) payload))
  | deliver (stop : Nat) (hstart : s.rxStart ≤ stop) (hstop : stop ≤ s.rxEnd) :
      Beat R s ({ s with rxStart := stop }.log
        (.delivered ((s.rxPayload.toList.take stop).drop s.rxStart)))
  | wake {s' : Reliable T C W E N} (h : Woken s s') : Beat R s s'
  | environment (transport : T) (timer : C) : Beat R s { s with transport, timer }

/-- Any number of beats. -/
def Beats (R : Reliable T C W E N → Reliable T C W E N → Prop) :
    Reliable T C W E N → Reliable T C W E N → Prop :=
  Relation.ReflTransGen (Beat R)

/-- `R` covers what happens inside `step`. -/
structure Covers (R : Reliable T C W E N → Reliable T C W E N → Prop) : Prop where
  of_step : ∀ {s s' : Reliable T C W E N}, Stepped s s' → Relation.ReflTransGen R s s'
  turns : ∀ {s s' : Reliable T C W E N}, Inv s → R s s' → Turns s s'

theorem covers_act : Covers (Act (T := T) (C := C) (W := W) (E := E) (N := N)) where
  of_step h := by
    obtain ⟨_, _, _, _, hstep⟩ := h
    exact hstep.acts
  turns := Act.turns

theorem covers_stepped : Covers (Stepped (T := T) (C := C) (W := W) (E := E) (N := N)) where
  of_step h := .single h
  turns hinv h := by
    obtain ⟨_, _, _, _, hstep⟩ := h
    exact hstep.turns hinv

variable {R : Reliable T C W E N → Reliable T C W E N → Prop}

/-- Nothing happened to packets and frames; the connection may have failed. -/
structure Apart (s s' : Reliable T C W E N) : Prop where
  adds : Adds (fun event => event.apart) s s'
  same : ∃ transport timer health waiters rxStart finalInput trace,
    (finalInput = s.finalInput ∨ finalInput = none) ∧
      s' = { s with transport, timer, health, waiters, rxStart, finalInput, trace }

/-- A beat happens inside a step, encodes a packet, or is apart from both. -/
theorem Beat.apart_or (h : Beat R s s') :
    (s.health = .ok ∧ R s s') ∨
      (∃ payload scratch txFrame txLen, s.writeReady = true ∧ s' = { s with
        scratch, txFrame, txLen, txNext := s.txNext + 1, txRetries := 0, tx := .queued }.log
          (.queued (UInt32.ofNat s.txNext) payload)) ∨ Apart s s' := by
  cases h with
  | inside hhealth hinside => exact .inl ⟨hhealth, hinside⟩
  | queue payload scratch txFrame txLen _ hready =>
      exact .inr (.inl ⟨payload, scratch, txFrame, txLen, hready, rfl⟩)
  | note event haside =>
      refine .inr (.inr ⟨.of_snoc rfl ?_, _, _, _, _, _, _, _, .inl rfl, rfl⟩)
      cases event <;> simp_all [Event.aside, Event.apart]
  -- besides the health, a failure clears the allowance for the final input
  | fail error =>
      rw [fail_eq]
      exact .inr (.inr ⟨.of_eq rfl, _, _, _, _, _, _, _, .inr rfl, rfl⟩)
  | report => exact .inr (.inr ⟨.of_eq rfl, _, _, _, _, _, _, _, .inl rfl, rfl⟩)
  | deliver => exact .inr (.inr ⟨.of_snoc rfl rfl, _, _, _, _, _, _, _, .inl rfl, rfl⟩)
  | wake hwoken =>
      obtain ⟨waiters, wakes, rfl, hwakes⟩ := hwoken
      refine .inr (.inr ⟨⟨wakes, rfl, fun event hevent => ?_⟩, _, _, _, _, _, _, _, .inl rfl, rfl⟩)
      obtain ⟨op, waker, rfl⟩ := hwakes event hevent
      rfl
  | environment => exact .inr (.inr ⟨.of_eq rfl, _, _, _, _, _, _, _, .inl rfl, rfl⟩)

namespace Beats

theorem refl (s : Reliable T C W E N) : Beats R s s := Relation.ReflTransGen.refl

theorem trans (h : Beats R s s') (h' : Beats R s' s'') : Beats R s s'' :=
  Relation.ReflTransGen.trans h h'

theorem of_beat (h : Beat R s s') : Beats R s s' := .single h

theorem tail (h : Beats R s s') (h' : Beat R s' s'') : Beats R s s'' :=
  Relation.ReflTransGen.tail h h'

theorem note (h : Beats R s s') (event : Event W E) (haside : event.aside) :
    Beats R s (s'.log event) :=
  h.tail (.note event haside)

end Beats

/-- What happens inside a step keeps the connection healthy. -/
theorem Covers.beats (hR : Covers R) (hinv : Inv s) (hhealth : s.health = .ok)
    (h : Relation.ReflTransGen R s s') : Beats R s s' ∧ Inv s' ∧ s'.health = .ok := by
  induction h with
  | refl => exact ⟨.refl s, hinv, hhealth⟩
  | tail _ hinside ih =>
      obtain ⟨hbeats, hinv₁, hhealth₁⟩ := ih
      have hturns := hR.turns hinv₁ hinside
      exact ⟨hbeats.tail (.inside hhealth₁ hinside), hinv₁.turns hturns,
        hturns.inner.health.trans hhealth₁⟩

theorem DriveLoop.beats (hR : Covers R) (hinv : Inv s) (hhealth : s.health = .ok) {cx : W}
    {budget budget' : Budget} {work : Work} (h : DriveLoop cx s budget work budget' s') :
    Beats R s s' := by
  have hstep : ∀ {s s₁ : Reliable T C W E N} {budget budget₁ : Budget} {work : Outcome E}, Inv s →
      s.health = .ok → Step (s.log .step) cx budget work budget₁ s₁ →
        Beats R s (s₁.log (.stepped work)) ∧ Inv (s₁.log (.stepped work)) ∧
          (s₁.log (.stepped work)).health = .ok := by
    intro s s₁ budget budget₁ work hinv hhealth hstep
    obtain ⟨hbeats, hinv₁, hhealth₁⟩ := hR.beats (hinv.turn (.note s .step rfl)) hhealth
      (hR.of_step ⟨cx, budget, budget₁, work, hstep⟩)
    exact ⟨(((Beats.refl s).note .step rfl).trans hbeats).note _ rfl,
      hinv₁.turn (.note s₁ _ rfl), hhealth₁⟩
  induction h with
  | progress h _ ih =>
      obtain ⟨hbeats, hinv₁, hhealth₁⟩ := hstep hinv hhealth h
      exact hbeats.trans (ih hinv₁ hhealth₁)
  | blocked h => exact (hstep hinv hhealth h).1
  | yield h => exact (hstep hinv hhealth h).1.note _ rfl
  | error h => exact (hstep hinv hhealth h).1.tail (.fail _)

theorem Drive.beats (hR : Covers R) (hinv : Inv s) {cx : W} {budget budget' : Budget} {work : Work}
    (h : Drive s cx budget work budget' s') : Beats R s s' := by
  cases h with
  | stopped => exact .refl s
  | loop hhealth hloop => exact hloop.beats hR hinv hhealth

/-! ## Calls -/

theorem Beats.report {error : ConnectionError E} (h : s.failure = (some error, s')) :
    Beats R s s' := by
  obtain ⟨rfl, hcause⟩ := failure_eq_some h
  refine .of_beat (.report ?_)
  rcases hcause with hfailed | ⟨hreported, -⟩
  · simp [hfailed]
  · simp [hreported]

theorem exhaust_beats (s : Reliable T C W E N) : Beats R s s.exhaust := by
  unfold exhaust
  split
  · exact ((Beats.refl s).note .exhausted rfl).tail (.fail _)
  · exact .refl s

theorem QueuePacket.beats (hR : Covers R) (hN : Fits N) (hinv : Inv s) {cx : W} {buf : List UInt8}
    (hne : buf ≠ []) {poll : Poll (Except (ConnectionError E) Nat)}
    (h : QueuePacket s cx buf poll s') : Beats R s s' := by
  cases h with
  | failed hdrive hfailure =>
      exact ((hdrive.beats hR hinv).trans (exhaust_beats _)).trans (.report hfailure)
  | busy hdrive => exact hdrive.beats hR hinv
  | @accepted _ _ s₁ s₂ _ payload scratch txFrame txLen hdrive hhealth hready hnext hpayload hlen
      hframe hqueued hsecond =>
      obtain ⟨hpne, hple⟩ := take_maxPayload hN hne
      have hinv₂ := (accepted_moves hN (hinv.moves hN (hdrive.moves hinv)) hne hready hnext
        hpayload hlen hframe hqueued).2
      have hqueue : Beats R s₁ s₂ := by
        rw [hqueued]
        exact .of_beat (.queue payload scratch txFrame txLen hhealth hready hnext
          (hpayload ▸ hpne) (hpayload ▸ hple) hlen hframe)
      refine ((hdrive.beats hR hinv).trans hqueue).trans ?_
      obtain ⟨-, rfl⟩ | ⟨-, work', budget', hdrive'⟩ := hsecond
      · exact .refl s'
      · exact hdrive'.beats hR hinv₂

theorem Dispatch.beats [Waker W] (hR : Covers R) (hN : Fits N) (hinv : Inv s) {call : Call W}
    {ret : Return E}
    (h : Dispatch s call ret s') : Beats R s s' := by
  -- every call that drives ends with the wakeups of `finish`
  have hfinish : ∀ {P : Type} {s₁ : Reliable T C W E N} (op : Op) (cx : W) (poll : Poll P),
      Beats R s s₁ → Beats R s (s₁.finish op cx poll) := fun op cx poll h =>
    h.tail (.wake (finish_woken _ op cx poll))
  cases h with
  | readEmpty => exact .refl s
  | @readData cx _ _ _ _ len s₁ hne hdrive hdata hlen hbytes =>
      refine hfinish _ _ _ ((hdrive.beats hR hinv).tail ?_)
      rw [hbytes]
      exact .deliver (s₁.rxStart + len) (Nat.le_add_right _ _) (by omega)
  | readError cx hne hdrive hdata hfailure =>
      exact hfinish _ _ _ ((hdrive.beats hR hinv).trans (.report hfailure))
  | readPending cx hne hdrive => exact hfinish _ _ _ (hdrive.beats hR hinv)
  | writeEmpty => exact .refl s
  | write cx hne hqueue => exact hfinish _ _ _ (hqueue.beats hR hN hinv hne)
  | flushError cx hdrive hfailure =>
      exact hfinish _ _ _ ((hdrive.beats hR hinv).trans (.report hfailure))
  | flushReady cx hdrive => exact hfinish _ _ _ (hdrive.beats hR hinv)
  | flushPending cx hdrive => exact hfinish _ _ _ (hdrive.beats hR hinv)
  | progressError cx hdrive hfailure =>
      exact hfinish _ _ _ ((hdrive.beats hR hinv).trans (.report hfailure))
  | progressPending cx hdrive => exact hfinish _ _ _ (hdrive.beats hR hinv)
  | cancel operation => exact .of_beat (.wake (cancelPending_woken s operation))

/-! ## Runs -/

theorem Beat.moves (hR : Covers R) (hinv : Inv s) (h : Beat R s s') : Moves s s' := by
  cases h with
  | inside _ hinside => exact (hR.turns hinv hinside).moves
  | note event haside =>
      rcases Event.silent_of_aside haside with hquiet | houter
      · exact .of_move (.turn (.note s event hquiet))
      · exact .of_move (.note s event houter)
  | fail error => exact .fail s error
  | report => exact .health s _
  | queue payload scratch txFrame txLen _ hready hnext hne hpayload hlen hframe =>
      exact moves_queued hready hnext hne hpayload scratch hlen hframe
  | deliver stop hstart hstop => exact .of_move (.deliver s stop hstart hstop)
  | wake hwoken => exact hwoken.moves
  | environment transport timer => exact ((Turns.transport s transport).trans (.timer _ timer)).moves

theorem Next.beats [Waker W] [Transport T W E] [Timer C W] (hR : Covers R) (h : Sound s)
    (hnext : Next s s') : Beats R s s' := by
  cases hnext with
  | call hcall =>
      obtain ⟨s₁, hdispatch, rfl⟩ := h.dispatch hcall
      exact (hdispatch.beats hR h.fits h.inv).note _ rfl
  | environment transport timer => exact .of_beat (.environment transport timer)

theorem Run.beats [Waker W] [Transport T W E] [Timer C W] (hR : Covers R) (h : Sound s)
    (hrun : Run s s') : Beats R s s' := by
  induction hrun with
  | refl => exact .refl s
  | tail hrun hnext ih => exact ih.trans (hnext.beats hR (h.run hrun))

/-- A connection that `new` makes goes through `s` in a run, inside a call or between two calls. -/
def Visited (R : Reliable T C W E N → Reliable T C W E N → Prop) (s : Reliable T C W E N) : Prop :=
  ∃ transport timer config, Fits N ∧ Beats R (initial N transport timer config) s

theorem Reachable.visited [Waker W] [Transport T W E] [Timer C W] (hR : Covers R)
    (h : Reachable s) : Visited R s := by
  obtain ⟨transport, timer, config, s₀, hnew, hrun⟩ := h
  obtain ⟨hN, rfl⟩ := new_eq_ok.mp hnew
  exact ⟨transport, timer, config, hN, hrun.beats hR (.initial hN transport timer config)⟩

theorem Visited.beats (h : Visited R s) (hbeats : Beats R s s') : Visited R s' := by
  obtain ⟨transport, timer, config, hN, hbefore⟩ := h
  exact ⟨transport, timer, config, hN, hbefore.trans hbeats⟩

/-- What holds at the start and is kept by every beat holds of every state that is visited. -/
theorem Visited.keep {P : Reliable T C W E N → Prop}
    (hinitial : ∀ transport timer config, P (initial N transport timer config))
    (hbeat : ∀ {s s'}, Visited R s → P s → Beat R s s' → P s') (h : Visited R s) : P s := by
  obtain ⟨transport, timer, config, hN, hbeats⟩ := h
  induction hbeats with
  | refl => exact hinitial transport timer config
  | tail hbefore hlast ih => exact hbeat ⟨transport, timer, config, hN, hbefore⟩ ih hlast

theorem Visited.moves (hR : Covers R) (h : Visited R s) :
    ∃ transport timer config, Fits N ∧ Moves (initial N transport timer config) s := by
  obtain ⟨transport, timer, config, hN, hbeats⟩ := h
  refine ⟨transport, timer, config, hN, ?_⟩
  have hstart : Inv (initial N transport timer config : Reliable T C W E N) :=
    inv_initial transport timer config
  induction hbeats with
  | refl => exact .refl _
  | tail _ hlast ih => exact ih.trans (hlast.moves hR (hstart.moves hN ih))

theorem Visited.through (hR : Covers R) (h : Visited R s) : Through s := by
  obtain ⟨transport, timer, config, hN, hmoves⟩ := h.moves hR
  exact (through_initial transport timer config).moves hN hmoves

/-- A frame is in progress until it was accepted in whole and flushed, and then another one may be
started. -/
theorem Visited.finished (hR : Covers R) (h : Visited R s) {before after : List (Event W E)}
    {kind : Frame} {seq : UInt32} {bytes : List UInt8}
    (htrace : s.trace = before ++ .started kind seq bytes :: after) :
    (∃ sent cx rest, after = sent ++ .pollFlush cx kind (.ready (.ok ())) :: rest ∧
      accepted sent = bytes ∧ startedFrames sent = []) ∨
        s.line.current = [bytes] ∧ accepted after = s.line.part ∧ startedFrames after = [] := by
  obtain ⟨transport, timer, config, hN, hmoves⟩ := h.moves hR
  rcases finished_of_line (h.through hR).history.line htrace with
    ⟨sent, cx, kind', rest, rfl, hsent, hstarted⟩ | hline
  · -- the frame that is flushed is the one that was started last
    rw [← List.cons_append, ← List.append_assoc] at htrace
    obtain ⟨s₁, s₂, h₁, hmove, -, hs₁, hs₂⟩ := hmoves.through_event hN htrace
    have hout := hmove.of_flushed (hs₁ ▸ hs₂)
    have hholds := h₁.out
    rw [OutHolds, hout, hs₁] at hholds
    obtain ⟨f, hlast, rfl⟩ := hholds
    rw [startedFrames_append, startedFrames, startedFrames, List.filterMap_cons,
      ← startedFrames, ← startedFrames, hstarted] at hlast
    simp only [Event.started?, List.getLast?_concat, Option.some.injEq] at hlast
    exact .inl ⟨sent, cx, rest, by rw [← hlast], hsent, hstarted⟩
  · exact .inr hline

/-- A packet that was parsed was taken by the protocol in the state it was parsed in. -/
def Parsings (s : Reliable T C W E N) : Prop :=
  ∀ before packet after, s.trace = before ++ .parsed packet :: after →
    ∃ t t' : Reliable T C W E N, (∃ transport timer config,
      Moves (initial N transport timer config) t) ∧ t.config = s.config ∧
        t.trace = before ++ [.parsed packet] ∧ Take t packet t' ∧ t'.trace <+: s.trace

theorem Parsings.grow (h : Parsings s) {events : List (Event W E)}
    (htrace : s'.trace = s.trace ++ events) (hconfig : s'.config = s.config)
    (hnone : ∀ packet, .parsed packet ∉ events) : Parsings s' := by
  intro before packet after hsplit
  rw [htrace] at hsplit
  rcases split_append hsplit with ⟨rest, hold, -⟩ | ⟨front, -, rfl⟩
  · obtain ⟨t, t', ht, htconfig, hparsed, htake, hprefix⟩ := h before packet rest hold
    refine ⟨t, t', ht, htconfig.trans hconfig.symm, hparsed, htake, hprefix.trans ?_⟩
    rw [htrace]
    exact List.prefix_append _ _
  · exact absurd (by simp) (hnone packet)

/-- A packet that is taken adds at most the event that says so. -/
theorem Take.trace {packet : Packet} (h : Take s packet s') :
    ∃ events, s'.trace = s.trace ++ events ∧ ∀ packet', .parsed packet' ∉ events := by
  cases h with
  | release seq => exact ⟨[.released seq], rfl, by simp⟩
  | retain seq payload => exact ⟨[.retained seq payload], rfl, by simp⟩
  | again => exact ⟨[], (List.append_nil _).symm, by simp⟩
  | _ => exact ⟨[], (List.append_nil _).symm, by simp⟩

theorem Parsings.processFrame (h : Parsings s) (hvisited : Visited Act s) {body : List UInt8}
    (hframe : ProcessFrame s body s') : Parsings s' := by
  have hconfig := hframe.turns.inner.config
  cases hframe with
  | @undecodable _ scratch =>
      exact h.grow (show _ = s.trace ++ [.frame body] from rfl) rfl (by simp)
  | unparsable => exact h.grow (List.append_assoc ..) hconfig (by simp)
  | @parsed decoded scratch packet _ _ _ htake =>
      -- the state in which the packet is parsed
      have hmoves : Moves s ((({ s.log (.frame body) with scratch }.log
          (.decoded (scratch.toList.take decoded.len))).log (.parsed packet))) :=
        ((((Turns.refl s).note (.frame body) rfl).trans (.scratch _ scratch)).note _ rfl
          |>.tail (.parse _ packet)).moves
      generalize hlog : ({ s.log (.frame body) with scratch }.log
        (.decoded (scratch.toList.take decoded.len))).log (.parsed packet) = t at htake hmoves
      obtain ⟨events, htrace, hnone⟩ := htake.trace
      have hparsed : t.trace = s.trace ++ [.frame body,
          .decoded (scratch.toList.take decoded.len)] ++ [.parsed packet] := by
        rw [← hlog]
        simp
      intro before packet' after hsplit
      rw [htrace, hparsed] at hsplit
      rcases split_append hsplit with ⟨rest, hold, -⟩ | ⟨front, -, rfl⟩
      · rcases split_concat hold with ⟨rest', hold', -⟩ | ⟨rfl, hlast, -⟩
        · have hbefore : Parsings { s with trace := s.trace ++ [.frame body,
              .decoded (scratch.toList.take decoded.len)] } := h.grow rfl rfl (by simp)
          obtain ⟨u, u', hu, huconfig, huparsed, hutake, hprefix⟩ :=
            hbefore before packet' rest' hold'
          refine ⟨u, u', hu, huconfig.trans hconfig.symm, huparsed, hutake, hprefix.trans ?_⟩
          rw [htrace, hparsed, List.append_assoc]
          exact List.prefix_append _ _
        · cases hlast
          obtain ⟨transport, timer, config, -, hbefore⟩ := hvisited.moves covers_act
          refine ⟨t, s', ⟨transport, timer, config, hbefore.trans hmoves⟩, ?_, hparsed, htake,
            List.prefix_rfl⟩
          rw [hmoves.config, hconfig]
      · exact absurd (by simp) (hnone packet')

theorem Parsings.beat (hvisited : Visited Act s) (h : Parsings s) (hbeat : Beat Act s s') :
    Parsings s' := by
  have hadds : ∀ {P : Event W E → Prop}, (∀ packet, ¬P (.parsed packet)) → Adds P s s' →
      s'.config = s.config → Parsings s' := by
    rintro P hP ⟨events, htrace, hevents⟩ hconfig
    exact h.grow htrace hconfig fun packet hmem => hP packet (hevents _ hmem)
  rcases hbeat.apart_or with ⟨-, hact⟩ | ⟨payload, _, _, _, -, rfl⟩ | hapart
  · rcases hact.frame_or with ⟨body, -, -, -, hframe⟩ | hevents
    · exact h.processFrame hvisited hframe
    · exact hadds (by simp [Event.input]) hevents
        (hact.turns (hvisited.through covers_act).inv).inner.config
  · have hqueued : ∀ packet, Event.parsed packet ∉
        [(.queued (UInt32.ofNat s.txNext) payload : Event W E)] := by simp
    exact h.grow rfl rfl hqueued
  · obtain ⟨hevents, _, _, _, _, _, _, _, -, rfl⟩ := hapart
    exact hadds (by simp [Event.apart, Event.aside]) hevents rfl

theorem Visited.parsings (h : Visited Act s) : Parsings s :=
  h.keep (fun _ _ _ before packet after htrace => by simp [initial] at htrace) Parsings.beat

end Reliable

end CobsIoAsync.Connection
