import CobsIoAsync.Connection.Calls
import CobsIoAsync.Connection.Link

/-!
# Connection.Invariant — every reachable state is sound

Calls are sequences of moves, so the invariant of the packets and frames holds in every reachable
state; the receive buffer is settled between two calls; and from such a state every call returns.
-/

namespace CobsIoAsync.Connection.Reliable

open Reasoning Protocol

variable {T C W E : Type} {N : Nat} {s s' s'' : Reliable T C W E N}

/-! ## The end of a call -/

/-- Between two states only waiters were changed or woken. -/
def Woken (s s' : Reliable T C W E N) : Prop :=
  ∃ waiters wakes, s' = { s with waiters, trace := s.trace ++ wakes } ∧
    ∀ event ∈ wakes, ∃ op waker, event = .wake op waker

theorem wakeWhere_woken (p : Op → Bool) (s : Reliable T C W E N) (waiters : Waiters W) :
    Woken s ({ s with waiters }.wakeWhere p) := by
  refine ⟨_, _, rfl, fun event hevent => ?_⟩
  obtain ⟨op, -, hop⟩ := List.mem_filterMap.mp hevent
  split at hop
  · obtain ⟨waker, -, rfl⟩ := Option.map_eq_some_iff.mp hop
    exact ⟨op, waker, rfl⟩
  · cases hop

theorem finish_woken [Waker W] {R : Type} (s : Reliable T C W E N) (op : Op) (cx : W)
    (poll : Poll R) :
    Woken s (s.finish op cx poll) := by
  unfold finish
  cases poll with
  | pending =>
      dsimp only
      rw [notify_eq]
      exact wakeWhere_woken _ s _
  | ready value =>
      dsimp only
      rw [notify_eq]
      exact wakeWhere_woken _ s _

theorem cancelPending_woken (s : Reliable T C W E N) (operation : PendingOperation) :
    Woken s (s.cancelPending operation) := by
  rw [cancelPending_eq]
  exact wakeWhere_woken _ s _

variable [Target]

theorem Moves.waiters (s : Reliable T C W E N) (waiters : Waiters W) :
    Moves s { s with waiters } :=
  .of_move (.env s s.health waiters)

theorem Moves.notes (s : Reliable T C W E N) (events : List (Event W E))
    (h : ∀ event ∈ events, event.outer) : Moves s { s with trace := s.trace ++ events } := by
  induction events generalizing s with
  | nil => simpa using Moves.refl s
  | cons event events ih =>
      have hhead : Moves s (s.log event) := (Moves.refl s).note event (h event (by simp))
      have htail := ih (s.log event) fun e he => h e (by simp [he])
      simpa [log] using hhead.trans htail

theorem Woken.moves (h : Woken s s') : Moves s s' := by
  obtain ⟨waiters, wakes, rfl, hwakes⟩ := h
  refine (Moves.waiters s waiters).trans (Moves.notes _ wakes fun event hevent => ?_)
  obtain ⟨op, waker, rfl⟩ := hwakes event hevent
  rfl

omit [Target] in
theorem Woken.sameInput (h : Woken s s') : SameInput s s' := by
  obtain ⟨waiters, wakes, rfl, hwakes⟩ := h
  refine ⟨rfl, rfl, rfl, ?_, ?_⟩
  · have hnil : received wakes = [] := List.flatMap_eq_nil_iff.mpr fun event hevent => by
      obtain ⟨op, waker, rfl⟩ := hwakes event hevent
      rfl
    simp [hnil]
  · have hnil : frames wakes = [] := List.filterMap_eq_nil_iff.mpr fun event hevent => by
      obtain ⟨op, waker, rfl⟩ := hwakes event hevent
      rfl
    simp [hnil]

omit [Target] in
/-- A failure is reported once, and from then on the connection has failed. -/
theorem failure_eq_some {error : ConnectionError E} (h : s.failure = (some error, s')) :
    s' = { s with health := .reported } ∧
      (s.health = .failed error ∨ s.health = .reported ∧ error = .failed) := by
  unfold failure at h
  split at h
  · cases h
  · rename_i hhealth
    cases h
    exact ⟨rfl, .inl hhealth⟩
  · rename_i hhealth
    cases h
    refine ⟨?_, .inr ⟨hhealth, rfl⟩⟩
    rw [← hhealth]

theorem exhaust_moves (s : Reliable T C W E N) : Moves s s.exhaust := by
  unfold exhaust
  split
  · exact ((Moves.refl s).note _ rfl).trans (.fail _ _)
  · exact .refl s

omit [Target] in
theorem exhaust_sameInput (s : Reliable T C W E N) : SameInput s s.exhaust := by
  unfold exhaust
  split
  · exact ((SameInput.refl s).log _ rfl rfl).fail _
  · exact .refl s

/-! ## Calls -/

/-- What `queue_packet` does to a connection that takes the packet, before it drives again. -/
theorem accepted_moves (hN : Fits N) (h : Inv s) {buf payload : List UInt8} (hne : buf ≠ [])
    {scratch txFrame : Bytes N} {txLen : Nat} (hready : s.writeReady = true)
    (hnext : s.txNext ≤ u32Max) (hpayload : payload = buf.take (maxPayload N))
    (hlen : txLen = (Packet.data s.config.session (UInt32.ofNat s.txNext) payload).frame.length)
    (hframe : txFrame.toList.take txLen =
      (Packet.data s.config.session (UInt32.ofNat s.txNext) payload).frame)
    (hqueued : s' = { s with
      scratch, txFrame, txLen, txNext := s.txNext + 1, txRetries := 0, tx := .queued }.log
        (.queued (UInt32.ofNat s.txNext) payload)) : Moves s s' ∧ Inv s' := by
  obtain ⟨hpne, hple⟩ := take_maxPayload hN hne
  have hmoves : Moves s s' := hqueued ▸
    moves_queued hready hnext (hpayload ▸ hpne) (hpayload ▸ hple) scratch hlen hframe
  exact ⟨hmoves, h.moves hN hmoves⟩

theorem QueuePacket.moves (hN : Fits N) (h : Inv s) {cx : W} {buf : List UInt8} (hne : buf ≠ [])
    {poll : Poll (Except (ConnectionError E) Nat)} (hqueue : QueuePacket s cx buf poll s') :
    Moves s s' := by
  cases hqueue with
  | @failed _ _ s₁ s₂ error hdrive hfailure =>
      obtain ⟨rfl, -⟩ := failure_eq_some hfailure
      exact ((hdrive.moves h).trans (exhaust_moves s₁)).trans (.health _ _)
  | busy hdrive => exact hdrive.moves h
  | accepted hdrive hhealth hready hnext hpayload hlen hframe hqueued hsecond =>
      have hinv₁ := h.moves hN (hdrive.moves h)
      obtain ⟨hmoves, hinv₂⟩ :=
        accepted_moves hN hinv₁ hne hready hnext hpayload hlen hframe hqueued
      obtain ⟨-, rfl⟩ | ⟨-, work', budget', hdrive'⟩ := hsecond
      · exact (hdrive.moves h).trans hmoves
      · exact ((hdrive.moves h).trans hmoves).trans (hdrive'.moves hinv₂)

theorem QueuePacket.receives {cx : W} {buf : List UInt8}
    {poll : Poll (Except (ConnectionError E) Nat)} (hqueue : QueuePacket s cx buf poll s') :
    Receives s s' := by
  cases hqueue with
  | @failed _ _ s₁ s₂ error hdrive hfailure =>
      obtain ⟨rfl, -⟩ := failure_eq_some hfailure
      exact (hdrive.receives.same (exhaust_sameInput s₁)).same ⟨rfl, rfl, rfl, rfl, rfl⟩
  | busy hdrive => exact hdrive.receives
  | @accepted _ _ s₁ s₂ _ _ _ _ _ hdrive _ _ _ _ _ _ hqueued hsecond =>
      have hsame : SameInput s₁ s₂ := by
        rw [hqueued]
        exact .of_trace rfl rfl rfl rfl rfl rfl
      obtain ⟨-, rfl⟩ | ⟨-, work', budget', hdrive'⟩ := hsecond
      · exact hdrive.receives.same hsame
      · exact (hdrive.receives.same hsame).trans hdrive'.receives

/-- A call is a sequence of moves. -/
theorem Dispatch.moves [Waker W] (hN : Fits N) (h : Inv s) {call : Call W} {ret : Return E}
    (hcall : Dispatch s call ret s') : Moves s s' := by
  cases hcall with
  | readEmpty => exact .refl s
  | @readData cx _ _ _ _ len s₁ hne hdrive hdata hlen hbytes =>
      have hdeliver := (hdrive.moves h).tail
        (.deliver s₁ (s₁.rxStart + len) (Nat.le_add_right _ _) (by omega))
      rw [← hbytes] at hdeliver
      exact hdeliver.trans (finish_woken _ _ _ _).moves
  | readError cx hne hdrive hdata hfailure =>
      obtain ⟨rfl, -⟩ := failure_eq_some hfailure
      exact ((hdrive.moves h).trans (.health _ _)).trans (finish_woken _ _ _ _).moves
  | readPending cx hne hdrive => exact (hdrive.moves h).trans (finish_woken _ _ _ _).moves
  | writeEmpty => exact .refl s
  | write cx hne hqueue => exact (hqueue.moves hN h hne).trans (finish_woken _ _ _ _).moves
  | flushError cx hdrive hfailure =>
      obtain ⟨rfl, -⟩ := failure_eq_some hfailure
      exact ((hdrive.moves h).trans (.health _ _)).trans (finish_woken _ _ _ _).moves
  | flushReady cx hdrive => exact (hdrive.moves h).trans (finish_woken _ _ _ _).moves
  | flushPending cx hdrive => exact (hdrive.moves h).trans (finish_woken _ _ _ _).moves
  | progressError cx hdrive hfailure =>
      obtain ⟨rfl, -⟩ := failure_eq_some hfailure
      exact ((hdrive.moves h).trans (.health _ _)).trans (finish_woken _ _ _ _).moves
  | progressPending cx hdrive => exact (hdrive.moves h).trans (finish_woken _ _ _ _).moves
  | cancel operation => exact (cancelPending_woken s operation).moves

theorem Dispatch.receives [Waker W] {call : Call W} {ret : Return E}
    (hcall : Dispatch s call ret s') :
    Receives s s' := by
  have hfinish : ∀ {R : Type} {s₁ : Reliable T C W E N} (op : Op) (cx : W) (poll : Poll R),
      Receives s s₁ → Receives s (s₁.finish op cx poll) := fun op cx poll h =>
    h.same (finish_woken _ op cx poll).sameInput
  have hreport : ∀ {s₁ s₂ : Reliable T C W E N} {error : ConnectionError E},
      s₁.failure = (some error, s₂) → Receives s s₁ → Receives s s₂ := by
    intro s₁ s₂ error hfailure h
    obtain ⟨rfl, -⟩ := failure_eq_some hfailure
    exact h.same ⟨rfl, rfl, rfl, rfl, rfl⟩
  cases hcall with
  | readEmpty => exact .refl s
  | readData cx hne hdrive =>
      exact hfinish _ _ _ (hdrive.receives.same (.of_trace rfl rfl rfl rfl rfl rfl))
  | readError cx hne hdrive hdata hfailure =>
      exact hfinish _ _ _ (hreport hfailure hdrive.receives)
  | readPending cx hne hdrive => exact hfinish _ _ _ hdrive.receives
  | writeEmpty => exact .refl s
  | write cx hne hqueue => exact hfinish _ _ _ hqueue.receives
  | flushError cx hdrive hfailure => exact hfinish _ _ _ (hreport hfailure hdrive.receives)
  | flushReady cx hdrive => exact hfinish _ _ _ hdrive.receives
  | flushPending cx hdrive => exact hfinish _ _ _ hdrive.receives
  | progressError cx hdrive hfailure => exact hfinish _ _ _ (hreport hfailure hdrive.receives)
  | progressPending cx hdrive => exact hfinish _ _ _ hdrive.receives
  | cancel operation => exact (cancelPending_woken s operation).sameInput.receives

/-! ## Runs -/

/-- `new` returns where its constants do not overflow. -/
theorem new_returns {max : Nat} (hmax : maxEncodingLength N = some max)
    (hroom : N + ackFrameLen ≤ Target.usizeMax) (transport : T) (timer : C) (config : Config) :
    Returns (new N transport timer config : Exec (Except ConfigError (Reliable T C W E N)))
      fun _ => True :=
  (maxPayload_returns hmax).bind fun _ _ => (checkedAdd_returns hroom).bind fun _ _ => .ret trivial

/-- What `new` accepts, and what it makes. -/
theorem new_eq_ok {transport : T} {timer : C} {config : Config} :
    new N transport timer config = some (.ok s) ↔ Fits N ∧ s = initial N transport timer config := by
  simp only [new, bind, Option.bind_eq_some_iff]
  constructor
  · rintro ⟨max, hmax, room, hroom, hnew⟩
    split at hnew
    · cases hnew
    · rename_i hpos
      have hmax' : maxPayload N = max := by simp [maxPayload, hmax]
      refine ⟨⟨hmax' ▸ hmax, by omega, ?_⟩, by simpa using hnew.symm⟩
      by_contra hover
      rw [checkedAdd, if_neg hover] at hroom
      cases hroom
  · rintro ⟨hN, rfl⟩
    refine ⟨_, hN.maxPayload_eq, _, checkedAdd_eq hN.room, ?_⟩
    rw [if_neg (Nat.ne_of_gt hN.maxPayload_pos)]

theorem inv_initial (transport : T) (timer : C) (config : Config) :
    Inv (initial N transport timer config : Reliable T C W E N) := by
  constructor <;> simp [initial, dataOutBusy]

theorem settled_initial (hN : Fits N) (transport : T) (timer : C) (config : Config) :
    Settled (initial N transport timer config : Reliable T C W E N) := by
  have hpos := hN.maxPayload_pos
  have hle := hN.maxPayload_le
  exact ⟨by simp only [initial]; omega, by simp [buffered, initial], fun _ => rfl⟩

section Runs

variable [Waker W] [Transport T W E] [Timer C W]

/-- A call that returns is recorded. -/
theorem call_eq_some {call : Call W} {ret : Return E} :
    s.call call = some (ret, s') ↔
      ∃ s₁, s.dispatch call = some (ret, s₁) ∧ s' = s₁.log (.returned call ret) := by
  simp only [Reliable.call, bind, Option.bind_eq_some_iff]
  constructor
  · rintro ⟨⟨ret', s₁⟩, hcall, h⟩
    cases h
    exact ⟨s₁, hcall, rfl⟩
  · rintro ⟨s₁, hcall, rfl⟩
    exact ⟨(ret, s₁), hcall, rfl⟩

/-- What is known of every reachable state. -/
structure Sound (s : Reliable T C W E N) : Prop where
  fits : Fits N
  inv : Inv s
  settled : Settled s

theorem Sound.dispatch (h : Sound s) {call : Call W} {ret : Return E}
    (hcall : s.call call = some (ret, s')) :
    ∃ s₁, Dispatch s call ret s₁ ∧ s' = s₁.log (.returned call ret) := by
  obtain ⟨s₁, hdispatch, rfl⟩ := call_eq_some.mp hcall
  exact ⟨s₁, (dispatch_returns h.fits h.inv h.settled _).post hdispatch, rfl⟩

theorem Sound.call_returns (h : Sound s) (call : Call W) :
    ∃ ret s', s.call call = some (ret, s') := by
  obtain ⟨⟨ret, s₁⟩, hcall, -⟩ := dispatch_returns h.fits h.inv h.settled call
  exact ⟨ret, _, call_eq_some.mpr ⟨s₁, hcall, rfl⟩⟩

/-- One step of a run is a sequence of moves and a sequence of receives. -/
theorem Next.moves (h : Sound s) (hnext : Next s s') : Moves s s' := by
  cases hnext with
  | call hcall =>
      obtain ⟨s₁, hdispatch, rfl⟩ := h.dispatch hcall
      exact (hdispatch.moves h.fits h.inv).note _ rfl
  | environment transport timer =>
      exact ((Turns.transport s transport).trans (.timer _ timer)).moves

theorem Next.receives (h : Sound s) (hnext : Next s s') : Receives s s' := by
  cases hnext with
  | call hcall =>
      obtain ⟨s₁, hdispatch, rfl⟩ := h.dispatch hcall
      exact hdispatch.receives.log _ rfl rfl
  | environment => exact SameInput.receives ⟨rfl, rfl, rfl, rfl, rfl⟩

theorem Sound.next (h : Sound s) (hnext : Next s s') : Sound s' :=
  ⟨h.fits, h.inv.moves h.fits (hnext.moves h), h.settled.receives (hnext.receives h)⟩

theorem Sound.run (h : Sound s) (hrun : Run s s') : Sound s' := by
  induction hrun with
  | refl => exact h
  | tail _ hnext ih => exact ih.next hnext

theorem Run.moves (h : Sound s) (hrun : Run s s') : Moves s s' := by
  induction hrun with
  | refl => exact .refl s
  | tail hrun hnext ih => exact ih.trans (hnext.moves (h.run hrun))

theorem Run.receives (h : Sound s) (hrun : Run s s') : Receives s s' := by
  induction hrun with
  | refl => exact .refl s
  | tail hrun hnext ih => exact ih.trans (hnext.receives (h.run hrun))

omit [Waker W] [Transport T W E] [Timer C W] in
theorem Sound.initial (hN : Fits N) (transport : T) (timer : C) (config : Config) :
    Sound (initial N transport timer config : Reliable T C W E N) :=
  ⟨hN, inv_initial transport timer config, settled_initial hN transport timer config⟩

theorem Reachable.run (h : Reachable s) (hrun : Run s s') : Reachable s' := by
  obtain ⟨transport, timer, config, s₀, hnew, hrun₀⟩ := h
  exact ⟨transport, timer, config, s₀, hnew, hrun₀.trans hrun⟩

theorem Reachable.sound (h : Reachable s) : Sound s := by
  obtain ⟨transport, timer, config, s₀, hnew, hrun⟩ := h
  obtain ⟨hN, rfl⟩ := new_eq_ok.mp hnew
  exact (Sound.initial hN transport timer config).run hrun

/-- What holds of a new connection and is kept by every step holds of every reachable one. -/
theorem Reachable.keep {P : Reliable T C W E N → Prop} (h : Reachable s)
    (hinitial : ∀ (transport : T) (timer : C) (config : Config),
      P (initial N transport timer config))
    (hnext : ∀ {s s' : Reliable T C W E N}, Sound s → P s → Next s s' → P s') : P s := by
  obtain ⟨transport, timer, config, s₀, hnew, hrun⟩ := h
  obtain ⟨hN, rfl⟩ := new_eq_ok.mp hnew
  have hsound : Sound (initial N transport timer config : Reliable T C W E N) :=
    .initial hN transport timer config
  induction hrun with
  | refl => exact hinitial transport timer config
  | tail hrun hstep ih => exact hnext (hsound.run hrun) ih hstep

/-- The fields of a reachable connection fit together, and every call returns from there. -/
theorem Reachable.representation (h : Reachable s) :
    Inv s ∧ Settled s ∧ ∀ call, ∃ ret s', s.call call = some (ret, s') :=
  ⟨h.sound.inv, h.sound.settled, h.sound.call_returns⟩

omit [Target] in
/-- A packet was written and waits for its acknowledgement. -/
theorem representation_waiting : letI := target64
    ∃ s, (testConnection []).calls [.write 1 [5]] = some s ∧ s.tx = .waiting ∧
      Inv s ∧ Settled s ∧ ∀ call, ∃ ret s', s.call call = some (ret, s') := by
  let := target64
  obtain ⟨s, hs⟩ := Option.isSome_iff_exists.mp
    (show ((testConnection []).calls [.write 1 [5]]).isSome by decide +kernel)
  have htx : ((testConnection []).calls [.write 1 [5]]).map tx = some .waiting := by
    decide +kernel
  rw [hs] at htx
  exact ⟨s, hs, Option.some.inj htx, (reachable_testConnection hs).representation⟩

end Runs

end CobsIoAsync.Connection.Reliable
