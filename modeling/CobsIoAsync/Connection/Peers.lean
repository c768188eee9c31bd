import CobsIoAsync.Connection.Output
import Mathlib.Data.List.Infix

/-!
# Connection.Peers — two connections

Two connections of one session, each called at any time, over links that do anything: nothing is
said about how bytes travel, only that no packet of the session is parsed that the other side did
not encode before.  Then the two are a pair of stop-and-wait endpoints.
-/

namespace CobsIoAsync.Connection

open Reasoning Protocol

variable {T C W E : Type} {N : Nat} {T' C' W' E' : Type} {N' : Nat}

def Event.parsed? : Event W E → Option Packet
  | .parsed packet => some packet
  | _ => none

/-- The packets that `process_frame` decoded and parsed. -/
def parsed (trace : List (Event W E)) : List Packet := trace.filterMap Event.parsed?

/-- Whether an event encodes a packet: in `queue_packet`, or in `poll_output`. -/
def Event.encodes : Packet → Event W E → Bool
  | .data _ seq payload, .queued seq' payload' => seq == seq' && payload == payload'
  | .ack _ seq, .started .ack seq' _ => seq == seq'
  | _, _ => false

/-- A packet was encoded. -/
def Encoded (trace : List (Event W E)) (packet : Packet) : Prop :=
  ∃ event ∈ trace, event.encodes packet

instance (trace : List (Event W E)) (packet : Packet) : Decidable (Encoded trace packet) :=
  inferInstanceAs (Decidable (∃ event ∈ trace, event.encodes packet = true))

/-- Every packet of the session that `s` parsed was encoded by the peer, which has logged
`theirs`. -/
def Reliable.Trusts (s : Reliable T C W E N) (theirs : List (Event W' E')) : Prop :=
  ∀ packet ∈ parsed s.trace, packet.session = s.config.session → Encoded theirs packet

instance (s : Reliable T C W E N) (theirs : List (Event W' E')) : Decidable (s.Trusts theirs) :=
  inferInstanceAs (Decidable (∀ packet ∈ parsed s.trace, packet.session = s.config.session →
    Encoded theirs packet))

/-- Two connections. -/
structure Peers (T C W E : Type) (N : Nat) (T' C' W' E' : Type) (N' : Nat) where
  a : Reliable T C W E N
  b : Reliable T' C' W' E' N'

namespace Peers

/-- The other side first. -/
def swap (p : Peers T C W E N T' C' W' E' N') : Peers T' C' W' E' N' T C W E N := ⟨p.b, p.a⟩

end Peers

/-- What two links promise: in which states a connection may be when the other side has logged some
events. -/
structure Links (T C W E : Type) (N : Nat) (T' C' W' E' : Type) (N' : Nat) where
  toLeft : Reliable T C W E N → List (Event W' E') → Prop
  toRight : Reliable T' C' W' E' N' → List (Event W E) → Prop

namespace Links

/-- The other side first. -/
def swap (links : Links T C W E N T' C' W' E' N') : Links T' C' W' E' N' T C W E N :=
  ⟨links.toRight, links.toLeft⟩

/-- Links over which nothing of the session is parsed that the other side has not encoded yet. -/
def trusting : Links T C W E N T' C' W' E' N' := ⟨Reliable.Trusts, Reliable.Trusts⟩

end Links

namespace Reliable

variable {s s' : Reliable T C W E N} {theirs theirs' : List (Event W' E')}

/-- What was encoded stays encoded, and what was not yet parsed was not parsed before. -/
theorem Trusts.mono (h : Trusts s' theirs) (hmine : s.trace <+: s'.trace)
    (hconfig : s'.config = s.config) (htheirs : theirs <+: theirs') : Trusts s theirs' := by
  intro packet hparsed hsession
  have hparsed' : packet ∈ parsed s'.trace := (hmine.filterMap Event.parsed?).subset hparsed
  obtain ⟨event, hevent, hencodes⟩ := h packet hparsed' (hconfig ▸ hsession)
  exact ⟨event, htheirs.subset hevent, hencodes⟩

/-- A trusting connection hears only what its peer said. -/
theorem Trusts.heard (h : Trusts s theirs) : ∀ m ∈ s.endpoint.heard, m ∈ said theirs := by
  intro m hm
  obtain ⟨event, hevent, hheard⟩ := List.mem_filterMap.mp hm
  cases event with
  | parsed packet =>
      have hparsed : packet ∈ parsed s.trace := List.mem_filterMap.mpr ⟨_, hevent, rfl⟩
      cases packet with
      | data session seq payload =>
          obtain ⟨hsession, rfl⟩ := by simpa [Event.heard?] using hheard
          obtain ⟨event, hmem, hencodes⟩ := h _ hparsed hsession
          refine List.mem_filterMap.mpr ⟨event, hmem, ?_⟩
          -- Only queueing a packet encodes a data packet, and it says the number of the packet.
          cases event <;> simp_all [Event.encodes, Event.said?]
      | ack session seq =>
          obtain ⟨hsession, rfl⟩ := by simpa [Event.heard?] using hheard
          obtain ⟨event, hmem, hencodes⟩ := h _ hparsed hsession
          refine List.mem_filterMap.mpr ⟨event, hmem, ?_⟩
          cases event with
          | started kind seq' bytes => cases kind <;> simp_all [Event.encodes, Event.said?]
          | _ => simp [Event.encodes] at hencodes
  | _ => simp [Event.heard?] at hheard

end Reliable

variable [Target]

theorem Reliable.Moves.trace {s s' : Reliable T C W E N} (h : Moves s s') :
    s.trace <+: s'.trace := by
  induction h with
  | refl => exact List.prefix_rfl
  | tail _ hmove ih =>
      rcases hmove.trace with htrace | ⟨event, htrace⟩
      · rwa [htrace]
      · exact htrace ▸ ih.trans (List.prefix_append _ _)

/-! ## The transfer from one side to the other -/

section Transfer

open Reliable

variable {a : Reliable T C W E N} {b : Reliable T' C' W' E' N'}

/-- As many packets as an idle connection queued were retained. -/
theorem Reliable.Through.queued_le_retained (ha : Through a) (hb : Through b)
    (htrusts : a.Trusts b.trace) (hidle : a.tx = .idle) :
    (queued a.trace).length ≤ (retained b.trace).length :=
  StopAndWait.sent_le_took (StopAndWait.inv_start.steps ha.history.endpoint)
    (StopAndWait.inv_start.steps hb.history.endpoint) htrusts.heard
    (Tx.inFlight_eq_false.mpr hidle)

/-- Two connections that were found in the middle of a run. -/
structure Paired (a : Reliable T C W E N) (b : Reliable T' C' W' E' N') : Prop where
  left : Through a
  right : Through b
  leftTrusts : a.Trusts b.trace
  rightTrusts : b.Trusts a.trace

namespace Paired

theorem swap (h : Paired a b) : Paired b a := ⟨h.right, h.left, h.rightTrusts, h.leftTrusts⟩

theorem retained_prefix (h : Paired a b) : retained b.trace <+: queued a.trace :=
  StopAndWait.took_prefix (StopAndWait.inv_start.steps h.left.history.endpoint)
    (StopAndWait.inv_start.steps h.right.history.endpoint) h.rightTrusts.heard

theorem queued_length_le (h : Paired a b) :
    (queued a.trace).length ≤ (retained b.trace).length + 1 :=
  StopAndWait.sent_le (StopAndWait.inv_start.steps h.left.history.endpoint)
    (StopAndWait.inv_start.steps h.right.history.endpoint) h.leftTrusts.heard

/-- Whatever an idle connection queued has arrived. -/
theorem retained_eq (h : Paired a b) (hidle : a.tx = .idle) :
    retained b.trace = queued a.trace :=
  StopAndWait.took_eq (StopAndWait.inv_start.steps h.left.history.endpoint)
    (StopAndWait.inv_start.steps h.right.history.endpoint) h.rightTrusts.heard h.leftTrusts.heard
    (Tx.inFlight_eq_false.mpr hidle)

/-- The bytes delivered are a beginning of the bytes queued. -/
theorem delivered_prefix (h : Paired a b) : delivered b.trace <+: (queued a.trace).flatten := by
  obtain ⟨rest, hrest⟩ := h.retained_prefix
  rw [← hrest, List.flatten_append, ← h.right.history.slot, List.append_assoc]
  exact List.prefix_append _ _

end Paired

end Transfer

/-! ## Two connections at any moment -/

namespace Peers

variable {p p' : Peers T C W E N T' C' W' E' N'}

/-- Two new connections of one session. -/
def Start (p : Peers T C W E N T' C' W' E' N') : Prop :=
  ∃ transport timer config transport' timer' config',
    Reliable.new N transport timer config = some (.ok p.a) ∧
      Reliable.new N' transport' timer' config' = some (.ok p.b) ∧
        config.session = config'.session

theorem Start.swap (h : Start p) : Start p.swap := by
  obtain ⟨transport, timer, config, transport', timer', config', ha, hb, hsession⟩ := h
  exact ⟨transport', timer', config', transport, timer, config, hb, ha, hsession.symm⟩

/-- Two new connections have logged nothing. -/
theorem Start.trace (h : Start p) : p.a.trace = [] ∧ p.b.trace = [] := by
  obtain ⟨_, _, _, _, _, _, ha, hb, -⟩ := h
  obtain ⟨-, ha⟩ := Reliable.new_eq_ok.mp ha
  obtain ⟨-, hb⟩ := Reliable.new_eq_ok.mp hb
  exact ⟨congrArg Reliable.trace ha, congrArg Reliable.trace hb⟩

end Peers

variable [Waker W] [Transport T W E] [Timer C W] [Waker W'] [Transport T' W' E'] [Timer C' W']

namespace Peers

variable {p p' : Peers T C W E N T' C' W' E' N'}

/-- Two connections of one session, each in a state of its own runs, that parsed nothing of the
session but what the other one encoded.  Nothing is said about how the steps of the two follow one
another: they may be polled at the same time, or one in the middle of a call of the other. -/
structure Sound (p : Peers T C W E N T' C' W' E' N') : Prop where
  left : p.a.Reachable
  right : p.b.Reachable
  session : p.a.config.session = p.b.config.session
  leftTrusts : p.a.Trusts p.b.trace
  rightTrusts : p.b.Trusts p.a.trace

theorem Sound.swap (h : Sound p) : Sound p.swap :=
  ⟨h.right, h.left, h.session.symm, h.rightTrusts, h.leftTrusts⟩

theorem Sound.paired (h : Sound p) : Paired p.a p.b :=
  ⟨h.left.through, h.right.through, h.leftTrusts, h.rightTrusts⟩

/-- What arrives on the right of what was written on the left. -/
structure Arrives (p : Peers T C W E N T' C' W' E' N') : Prop where
  trusts : p.b.Trusts p.a.trace
  readOut_prefix : readOut p.b.trace <+: (written p.a.trace).flatten
  /-- An idle sender knows that everything arrived. -/
  complete : p.a.tx = .idle → readOut p.b.trace ++ p.b.unread = (written p.a.trace).flatten

theorem Sound.arrives (h : Sound p) : Arrives p where
  trusts := h.rightTrusts
  readOut_prefix := by
    rw [h.left.accounts.written_eq, h.right.accounts.readOut_eq]
    exact h.paired.delivered_prefix
  complete := by
    intro hidle
    have hslot := h.right.history.slot
    unfold Reliable.SlotHolds at hslot
    rw [h.left.accounts.written_eq, h.right.accounts.readOut_eq, hslot, h.paired.retained_eq hidle]

/-! ## Runs of two connections -/

/-- One of the two makes a step of its own that the links allow. -/
inductive StepOver (links : Links T C W E N T' C' W' E' N') :
    Peers T C W E N T' C' W' E' N' → Peers T C W E N T' C' W' E' N' → Prop
  | left {p : Peers T C W E N T' C' W' E' N'} {a : Reliable T C W E N} (h : p.a.Next a)
      (hlink : links.toLeft a p.b.trace) : StepOver links p { p with a }
  | right {p : Peers T C W E N T' C' W' E' N'} {b : Reliable T' C' W' E' N'} (h : p.b.Next b)
      (hlink : links.toRight b p.a.trace) : StepOver links p { p with b }

/-- Any number of such steps. -/
def RunOver (links : Links T C W E N T' C' W' E' N') :
    Peers T C W E N T' C' W' E' N' → Peers T C W E N T' C' W' E' N' → Prop :=
  Relation.ReflTransGen (StepOver links)

/-- The states of two connections over links. -/
def ReachableOver (links : Links T C W E N T' C' W' E' N')
    (p : Peers T C W E N T' C' W' E' N') : Prop :=
  ∃ p₀, Start p₀ ∧ RunOver links p₀ p

/-- A step over links that do anything. -/
def Step : Peers T C W E N T' C' W' E' N' → Peers T C W E N T' C' W' E' N' → Prop :=
  StepOver .trusting

/-- The states of two connections over links that do anything. -/
def Reachable (p : Peers T C W E N T' C' W' E' N') : Prop := p.ReachableOver .trusting

theorem Sound.left_next (h : Sound p) {a : Reliable T C W E N} (hnext : p.a.Next a)
    (htrust : a.Trusts p.b.trace) : Sound { p with a } := by
  have hmoves := hnext.moves h.left.sound
  exact {
    left := h.left.run (.single hnext)
    right := h.right
    session := hmoves.config ▸ h.session
    leftTrusts := htrust
    rightTrusts := h.rightTrusts.mono List.prefix_rfl rfl hmoves.trace }

theorem Start.sound (h : Start p) : Sound p := by
  have htrace := h.trace
  obtain ⟨transport, timer, config, transport', timer', config', ha, hb, hsession⟩ := h
  refine ⟨⟨_, _, _, _, ha, .refl⟩, ⟨_, _, _, _, hb, .refl⟩, ?_, ?_, ?_⟩
  · obtain ⟨-, ha⟩ := Reliable.new_eq_ok.mp ha
    obtain ⟨-, hb⟩ := Reliable.new_eq_ok.mp hb
    rw [ha, hb]
    exact hsession
  · simp [htrace, Reliable.Trusts, parsed]
  · simp [htrace, Reliable.Trusts, parsed]

variable {links : Links T C W E N T' C' W' E' N'}

theorem StepOver.swap (h : StepOver links p p') : StepOver links.swap p.swap p'.swap := by
  cases h with
  | left hnext hlink => exact .right hnext hlink
  | right hnext hlink => exact .left hnext hlink

theorem RunOver.swap (h : RunOver links p p') : RunOver links.swap p.swap p'.swap := by
  induction h with
  | refl => exact .refl
  | tail _ hstep ih => exact ih.tail hstep.swap

theorem ReachableOver.swap (h : ReachableOver links p) : ReachableOver links.swap p.swap := by
  obtain ⟨p₀, hstart, hrun⟩ := h
  exact ⟨p₀.swap, hstart.swap, hrun.swap⟩

theorem ReachableOver.run (h : ReachableOver links p) (hrun : RunOver links p p') :
    ReachableOver links p' := by
  obtain ⟨p₀, hstart, hbefore⟩ := h
  exact ⟨p₀, hstart, hbefore.trans hrun⟩

theorem ReachableOver.step (h : ReachableOver links p) (hstep : StepOver links p p') :
    ReachableOver links p' := h.run (.single hstep)

end Peers

/-- Over these links two connections trust each other. -/
structure Links.Faithful (links : Links T C W E N T' C' W' E' N') : Prop where
  left : ∀ {a : Reliable T C W E N} {b : Reliable T' C' W' E' N'}, a.Reachable → b.Reachable →
    links.toLeft a b.trace → a.Trusts b.trace
  right : ∀ {a : Reliable T C W E N} {b : Reliable T' C' W' E' N'}, a.Reachable → b.Reachable →
    links.toRight b a.trace → b.Trusts a.trace

namespace Peers

variable {p p' : Peers T C W E N T' C' W' E' N'} {links : Links T C W E N T' C' W' E' N'}

theorem StepOver.trusting (hlinks : links.Faithful) (h : Sound p) (hstep : StepOver links p p') :
    Step p p' := by
  cases hstep with
  | left hnext hlink =>
      exact .left hnext (hlinks.left (h.left.run (.single hnext)) h.right hlink)
  | right hnext hlink =>
      exact .right hnext (hlinks.right h.left (h.right.run (.single hnext)) hlink)

theorem Sound.step (h : Sound p) (hstep : Step p p') : Sound p' := by
  cases hstep with
  | left hnext htrust => exact h.left_next hnext htrust
  | right hnext htrust => exact (h.swap.left_next hnext htrust).swap

theorem Reachable.sound (h : Reachable p) : Sound p := by
  obtain ⟨p₀, hstart, hrun⟩ := h
  induction hrun with
  | refl => exact hstart.sound
  | tail _ hstep ih => exact ih.step hstep

/-- Two connections over faithful links are two connections that trust each other. -/
theorem ReachableOver.trusting (hlinks : links.Faithful) (h : ReachableOver links p) :
    Reachable p := by
  obtain ⟨p₀, hstart, hrun⟩ := h
  induction hrun with
  | refl => exact ⟨p₀, hstart, .refl⟩
  | tail _ hstep ih => exact ih.step (hstep.trusting hlinks ih.sound)

/-- Over faithful links each side parses only what the other one encoded, reads a beginning of what
the other one wrote, and all of it when the other one is idle. -/
theorem ReachableOver.arrives (hlinks : links.Faithful) (h : ReachableOver links p) :
    Arrives p ∧ Arrives p.swap :=
  ⟨(h.trusting hlinks).sound.arrives, (h.trusting hlinks).sound.swap.arrives⟩

/-! ## Runs over the link of the tests -/

/-- Two connections of the tests. -/
abbrev OverLinks := Peers Link FakeClock Nat MockError 21 Link FakeClock Nat MockError 21

/-- A call of one side, or the bytes that each side wrote arrive at the other side. -/
inductive Action where
  | a (call : Call Nat)
  | b (call : Call Nat)
  | carry

section Play

variable (links : Links Link FakeClock Nat MockError 21 Link FakeClock Nat MockError 21)
  [∀ s theirs, Decidable (links.toLeft s theirs)] [∀ s theirs, Decidable (links.toRight s theirs)]

/-- One action; `none` where the links do not allow it. -/
def act (p : OverLinks) : Action → Exec OverLinks
  | .a call => do
    let (_, a) ← p.a.call call
    if links.toLeft a p.b.trace then some { p with a } else none
  | .b call => do
    let (_, b) ← p.b.call call
    if links.toRight b p.a.trace then some { p with b } else none
  | .carry =>
    let toA := p.a.transport.incoming ++ p.b.transport.outgoing
    let toB := p.b.transport.incoming ++ p.a.transport.outgoing
    let a := { p.a with transport := { p.a.transport with incoming := toA, outgoing := [] } }
    let b := { p.b with transport := { p.b.transport with incoming := toB, outgoing := [] } }
    if links.toLeft a p.b.trace ∧ links.toRight b p.a.trace then some ⟨a, b⟩ else none

/-- Actions one after the other. -/
def acts (p : OverLinks) (actions : List Action) : Exec OverLinks := actions.foldlM (act links) p

/-- Actions from two new connections on. -/
def play (actions : List Action) : Exec OverLinks :=
  acts links ⟨testConnection [], testConnection []⟩ actions

variable {links}

theorem act_run {p p' : OverLinks} {action : Action} (hact : p.act links action = some p') :
    RunOver links p p' := by
  cases action with
  | a call =>
      obtain ⟨⟨ret, a⟩, hcall, hrest⟩ := Option.bind_eq_some_iff.mp hact
      obtain ⟨hlink, hp'⟩ := Option.ite_none_right_eq_some.mp hrest
      exact Option.some.inj hp' ▸ .single (.left (.call hcall) hlink)
  | b call =>
      obtain ⟨⟨ret, b⟩, hcall, hrest⟩ := Option.bind_eq_some_iff.mp hact
      obtain ⟨hlink, hp'⟩ := Option.ite_none_right_eq_some.mp hrest
      exact Option.some.inj hp' ▸ .single (.right (.call hcall) hlink)
  | carry =>
      obtain ⟨⟨hleft, hright⟩, hp'⟩ := Option.ite_none_right_eq_some.mp hact
      exact Option.some.inj hp' ▸ .head (.left (.environment p.a _ p.a.timer) hleft)
        (.single (.right (.environment p.b _ p.b.timer) hright))

theorem acts_run {actions : List Action} {p p' : OverLinks}
    (h : p.acts links actions = some p') : RunOver links p p' := by
  induction actions generalizing p with
  | nil => exact Option.some.inj h ▸ .refl
  | cons action actions ih =>
      obtain ⟨p₁, hact, hrest⟩ := Option.bind_eq_some_iff.mp h
      exact (act_run hact).trans (ih hrest)

end Play

omit [Target] in
theorem play_reachable
    {links : Links Link FakeClock Nat MockError 21 Link FakeClock Nat MockError 21}
    [∀ s theirs, Decidable (links.toLeft s theirs)] [∀ s theirs, Decidable (links.toRight s theirs)]
    {actions : List Action} {p : OverLinks} (h : letI := target64; play links actions = some p) :
    letI := target64; ReachableOver links p :=
  let := target64
  ⟨_, ⟨_, _, _, _, _, _, rfl, rfl, rfl⟩, acts_run h⟩

instance (s : Reliable Link FakeClock Nat MockError 21) (theirs : List (Event Nat MockError)) :
    Decidable ((Links.trusting : Links Link FakeClock Nat MockError 21 Link FakeClock Nat MockError
      21).toLeft s theirs) := inferInstanceAs (Decidable (s.Trusts theirs))

instance (s : Reliable Link FakeClock Nat MockError 21) (theirs : List (Event Nat MockError)) :
    Decidable ((Links.trusting : Links Link FakeClock Nat MockError 21 Link FakeClock Nat MockError
      21).toRight s theirs) := inferInstanceAs (Decidable (s.Trusts theirs))

/-- Each side reads a beginning of what the other side wrote. -/
theorem Sound.stream_safety (h : Sound p) :
    readOut p.b.trace <+: (written p.a.trace).flatten ∧
      readOut p.a.trace <+: (written p.b.trace).flatten := by
  constructor
  · exact h.arrives.readOut_prefix
  · exact h.swap.arrives.readOut_prefix

omit [Target] in
/-- A packet arrives, and the one byte of it is read. -/
theorem stream_safety_packet : letI := target64
    ∃ p, play .trusting [.a (.write 1 [5]), .carry, .b (.read 2 [0, 0])] = some p ∧
      readOut p.b.trace = [5] ∧ readOut p.b.trace <+: (written p.a.trace).flatten ∧
        readOut p.a.trace <+: (written p.b.trace).flatten := by
  let := target64
  let actions : List Action := [.a (.write 1 [5]), .carry, .b (.read 2 [0, 0])]
  have hstate : (play .trusting actions).map (fun p => readOut p.b.trace) = some [5] := by
    decide +kernel
  obtain ⟨p, hp, hread⟩ := Option.map_eq_some_iff.mp hstate
  exact ⟨p, hp, hread, (Reachable.sound (play_reachable hp)).stream_safety⟩

end Peers

/-! ## Acknowledgements -/

namespace Reliable

variable {a a' : Reliable T C W E N} {b : Reliable T' C' W' E' N'}

omit [Target] [Waker W] [Transport T W E] [Timer C W] in
theorem flushReady_iff :
    a.flushReady = true ↔ a.tx = .idle ∧ a.out = .idle ∧ a.ackPending = none := by
  simp [flushReady, and_assoc]

/-- A flush that succeeds leaves the connection ready for one. -/
theorem Sound.flush (h : Sound a) {cx : W}
    (hcall : a.call (.flush cx) = some (.flush (.ready (.ok ())), a')) : a'.flushReady = true := by
  obtain ⟨s₁, hdispatch, rfl⟩ := h.dispatch hcall
  cases hdispatch with
  | flushReady cx hdrive hhealth hready =>
      obtain ⟨waiters, wakes, heq, -⟩ := finish_woken _ .flush cx
        (.ready (.ok () : Except (ConnectionError E) Unit))
      rw [heq]
      exact hready

/-- A write that accepts a packet finds the one before acknowledged. -/
theorem Sound.accept (h : Sound a) {cx : W} {buf : List UInt8} {len : Nat} (hne : buf ≠ [])
    (hcall : a.call (.write cx buf) = some (.write (.ready (.ok len)), a')) :
    ∃ s₁, Moves a s₁ ∧ s₁.trace <+: a'.trace ∧ s₁.tx = .idle ∧
      queued s₁.trace = queued a.trace := by
  obtain ⟨s', hdispatch, rfl⟩ := h.dispatch hcall
  cases hdispatch with
  | writeEmpty => exact absurd rfl hne
  | @write cx _ _ s₃ hne hqueue =>
      cases hqueue with
      | @accepted _ _ s₁ s₂ _ _ _ _ _ hdrive hhealth hready hnext hpayload hlen hframe hqueued
          hsecond =>
          -- The packet is queued between the drives, and the sender was idle before that.
          have hmoves₁ := hdrive.moves h.inv
          obtain ⟨hmoves₂, hinv₂⟩ := accepted_moves h.fits (h.inv.moves h.fits hmoves₁) hne hready
            hnext hpayload hlen hframe hqueued
          have hmoves₃ : Moves s₂ s₃ := by
            obtain ⟨-, rfl⟩ | ⟨-, work', budget', hdrive'⟩ := hsecond
            · exact .refl _
            · exact hdrive'.moves hinv₂
          refine ⟨s₁, hmoves₁, ?_, (writeReady_iff.mp hready).1, (hdrive.neutral h.inv).accounts.1⟩
          exact ((hmoves₂.trans hmoves₃).trans
            (Moves.note (finish_woken s₃ .write cx _).moves _ rfl)).trace

/-- What `a` knows of the packets it sends to `b`. -/
structure Acknowledged (a : Reliable T C W E N) (b : Reliable T' C' W' E' N') : Prop where
  rxNext_le : b.rxNext ≤ a.txNext
  txNext_le : a.txNext ≤ b.rxNext + 1
  txNext_eq : a.tx = .idle → a.txNext = b.rxNext
  /-- When a flush has succeeded, everything written was retained, and nothing is left to be
  sent. -/
  flushed : ∀ (before : Reliable T C W E N) cx, before.Reachable →
    before.call (.flush cx) = some (.flush (.ready (.ok ())), a) →
      readOut b.trace ++ b.unread = (written a.trace).flatten ∧ a.ackPending = none ∧
        FlushedThrough a.trace
  /-- When a packet was accepted, everything written before was retained, and nothing else as long
  as the other side has not heard of the packet. -/
  accepted : ∀ (before : Reliable T C W E N) cx buf len, before.Reachable → buf ≠ [] →
    before.call (.write cx buf) = some (.write (.ready (.ok len)), a) →
      (written before.trace).flatten <+: readOut b.trace ++ b.unread ∧
        (b.Trusts before.trace →
          readOut b.trace ++ b.unread = (written before.trace).flatten)

end Reliable

namespace Peers

variable {p : Peers T C W E N T' C' W' E' N'}

/-- What a write that accepts a packet knows of the packets before. -/
theorem Sound.accepted (h : Sound p) {before : Reliable T C W E N} (hbefore : before.Reachable)
    {cx : W} {buf : List UInt8} {len : Nat} (hne : buf ≠ [])
    (hcall : before.call (.write cx buf) = some (.write (.ready (.ok len)), p.a)) :
    queued before.trace <+: retained p.b.trace ∧
      (p.b.Trusts before.trace → retained p.b.trace = queued before.trace) := by
  have hmoves := Reliable.Next.moves hbefore.sound (.call hcall)
  obtain ⟨s₁, hmoves₁, htrace₁, hidle, hqueued⟩ := hbefore.sound.accept hne hcall
  have hconfig : p.a.config = s₁.config := by rw [hmoves.config, hmoves₁.config]
  -- the sender was idle in the middle of the call, and heard of nothing that was not said by now
  have htrusts := h.leftTrusts.mono htrace₁ hconfig List.prefix_rfl
  have hthrough := hbefore.through.moves hbefore.sound.fits hmoves₁
  have hle := hthrough.queued_le_retained h.right.through htrusts hidle
  rw [hqueued] at hle
  have hsent : queued before.trace <+: queued p.a.trace := hmoves.trace.filterMap Event.queued?
  have hall := List.prefix_of_prefix_length_le hsent h.paired.retained_prefix hle
  refine ⟨hall, fun hunheard => ?_⟩
  have hpaired : Paired before p.b :=
    ⟨hbefore.through, h.right.through,
      h.leftTrusts.mono hmoves.trace hmoves.config List.prefix_rfl, hunheard⟩
  exact hpaired.retained_prefix.eq_of_length_le hle

theorem Sound.knows (h : Sound p) : Reliable.Acknowledged p.a p.b := by
  have htx := h.left.history.counts.txNext
  have hrx := h.right.history.counts.rxNext
  have hpaired := h.paired
  have hslot := h.right.history.slot
  unfold Reliable.SlotHolds at hslot
  have harrived : readOut p.b.trace ++ p.b.unread = (retained p.b.trace).flatten := by
    rw [h.right.accounts.readOut_eq, hslot]
  refine ⟨?_, ?_, fun hidle => ?_, fun before cx hbefore hcall => ?_,
    fun before cx buf len hbefore hne hcall => ?_⟩
  · rw [← htx, ← hrx]
    exact hpaired.retained_prefix.length_le
  · rw [← htx, ← hrx]
    exact hpaired.queued_length_le
  · rw [← htx, ← hrx, hpaired.retained_eq hidle]
  · obtain ⟨hidle, hout, hack⟩ := Reliable.flushReady_iff.mp (hbefore.sound.flush hcall)
    have hline := h.left.history.line
    rw [show Reliable.line p.a = .idle by simp [Reliable.line, hout]] at hline
    refine ⟨?_, hack, flushedThrough_of_line hline⟩
    rw [harrived, h.left.accounts.written_eq, hpaired.retained_eq hidle]
  · obtain ⟨hall, honly⟩ := h.accepted hbefore hne hcall
    rw [harrived, hbefore.accounts.written_eq]
    exact ⟨hall.flatten, fun hunheard => congrArg List.flatten (honly hunheard)⟩

/-- What each side was told to be acknowledged was retained by the other one. -/
theorem Sound.acknowledged (h : Sound p) :
    Reliable.Acknowledged p.a p.b ∧ Reliable.Acknowledged p.b p.a :=
  ⟨h.knows, h.swap.knows⟩

omit [Target] in
/-- A packet arrives and its acknowledgement comes back, so that a flush succeeds. -/
theorem acknowledged_packet : letI := target64
    ∃ p, play .trusting [.a (.write 1 [5]), .carry, .b (.progress 2), .carry,
      .a (.flush 1)] = some p ∧ p.a.txNext = 1 ∧ p.a.flushReady = true ∧
        Reliable.Acknowledged p.a p.b ∧ Reliable.Acknowledged p.b p.a := by
  let := target64
  let actions : List Action :=
    [.a (.write 1 [5]), .carry, .b (.progress 2), .carry, .a (.flush 1)]
  have hstate : (play .trusting actions).map (fun p => (p.a.txNext, p.a.flushReady)) =
      some (1, true) := by
    decide +kernel
  obtain ⟨p, hp, hstate⟩ := Option.map_eq_some_iff.mp hstate
  obtain ⟨hnext, hready⟩ := Prod.mk.inj hstate
  exact ⟨p, hp, hnext, hready, (Reachable.sound (play_reachable hp)).acknowledged⟩

end Peers

end CobsIoAsync.Connection
