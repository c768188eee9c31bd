import CobsIoAsync.Connection.Link
import CobsIoAsync.Connection.Lockstep

/-!
# Connection.Cancel — dropped futures and changing tasks

Which tasks poll a connection, and which of them give up, decides who is woken.  It decides nothing
else: the same polls return the same, exchange the same with the transport and leave the same
protocol state, whatever wakers they come with and wherever an operation is canceled in between.
-/

namespace CobsIoAsync.Connection

open Reasoning

/-- Links and timers that answer alike, whoever asks: states that are related give the same answers
to any two wakers. -/
structure Impartial (T C W T' C' W' E : Type) [Transport T W E] [Timer C W] [Transport T' W' E]
    [Timer C' W'] where
  transport : T → T' → Prop
  timer : C → C' → Prop
  read : ∀ {n : Nat} {t : T} {t' : T'} (cx : W) (cx' : W') (buf : Bytes n), transport t t' →
    (Transport.pollRead t cx buf).2 = (Transport.pollRead t' cx' buf).2 ∧
      transport (Transport.pollRead t cx buf).1 (Transport.pollRead t' cx' buf).1
  write : ∀ {t : T} {t' : T'} (cx : W) (cx' : W') (buf : List UInt8), transport t t' →
    (Transport.pollWrite t cx buf).2 = (Transport.pollWrite t' cx' buf).2 ∧
      transport (Transport.pollWrite t cx buf).1 (Transport.pollWrite t' cx' buf).1
  flush : ∀ {t : T} {t' : T'} (cx : W) (cx' : W'), transport t t' →
    (Transport.pollFlush t cx).2 = (Transport.pollFlush t' cx').2 ∧
      transport (Transport.pollFlush t cx).1 (Transport.pollFlush t' cx').1
  now : ∀ {c : C} {c' : C'}, timer c c' →
    (Timer.now W c).2 = (Timer.now W' c').2 ∧ timer (Timer.now W c).1 (Timer.now W' c').1
  deadline : ∀ {c : C} {c' : C'} (cx : W) (cx' : W') (deadline : UInt64), timer c c' →
    (Timer.pollDeadline c cx deadline).2 = (Timer.pollDeadline c' cx' deadline).2 ∧
      timer (Timer.pollDeadline c cx deadline).1 (Timer.pollDeadline c' cx' deadline).1

/-- What a connection asks of its transport and what it is told, whoever asks. -/
def Event.exchange? {W E : Type} : Event W E → Option (Event Unit E)
  | .pollRead _ free poll bytes => some (.pollRead () free poll bytes)
  | .pollWrite _ kind pending poll => some (.pollWrite () kind pending poll)
  | .pollFlush _ kind poll => some (.pollFlush () kind poll)
  | _ => none

/-- All that was exchanged with the transport. -/
def exchanged {W E : Type} (trace : List (Event W E)) : List (Event Unit E) :=
  trace.filterMap Event.exchange?

/-- Whether a poll returned, and not `cancel_pending`. -/
def Return.polled {E : Type} : Return E → Bool
  | .cancelled => false
  | _ => true

variable {T C W T' C' W' E : Type}

theorem exchanged_append (trace more : List (Event W E)) :
    exchanged (trace ++ more) = exchanged trace ++ exchanged more := List.filterMap_append

theorem exchanged_aside {trace : List (Event W E)} {event : Event W E}
    (hevent : event.asks = false) : exchanged (trace ++ [event]) = exchanged trace := by
  have hnone : event.exchange? = none := by
    cases event <;> first | rfl | exact absurd hevent (by simp [Event.asks])
  rw [exchanged_append, exchanged, exchanged, List.filterMap_cons_none hnone, List.filterMap_nil,
    List.append_nil]

variable [Transport T W E] [Timer C W] [Transport T' W' E] [Timer C' W']

namespace Impartial

/-- In lockstep, whatever the wakers, and with the same exchanged so far. -/
def lockstep (I : Impartial T C W T' C' W' E) : Lockstep T C W T' C' W' E where
  waker _ _ := True
  link t trace t' trace' := I.transport t t' ∧ exchanged trace = exchanged trace'
  clock := I.timer
  read buf hlink _ := by
    obtain ⟨hanswer, hnext⟩ := I.read _ _ buf hlink.1
    refine ⟨hanswer, hnext, ?_⟩
    rw [exchanged_append, exchanged_append, hlink.2, hanswer]
    rfl
  write frame pending hlink _ := by
    obtain ⟨hanswer, hnext⟩ := I.write _ _ pending hlink.1
    refine ⟨hanswer, hnext, ?_⟩
    rw [exchanged_append, exchanged_append, hlink.2, hanswer]
    rfl
  flush frame hlink _ := by
    obtain ⟨hanswer, hnext⟩ := I.flush _ _ hlink.1
    refine ⟨hanswer, hnext, ?_⟩
    rw [exchanged_append, exchanged_append, hlink.2, hanswer]
    rfl
  left _ hevent hlink := ⟨hlink.1, by rw [exchanged_aside hevent, hlink.2]⟩
  right _ hevent hlink := ⟨hlink.1, by rw [exchanged_aside hevent, hlink.2]⟩
  now := I.now
  deadline deadline hclock _ := I.deadline _ _ deadline hclock

end Impartial

/-- One step of a run, written down. -/
inductive Action (T C W : Type) where
  | call (call : Call W)
  | environment (transport : T) (timer : C)

/-- The two calls are the same poll, by whatever tasks. -/
inductive Call.SamePoll : Call W → Call W' → Prop
  | read (cx : W) (cx' : W') (buf : List UInt8) : SamePoll (.read cx buf) (.read cx' buf)
  | write (cx : W) (cx' : W') (buf : List UInt8) : SamePoll (.write cx buf) (.write cx' buf)
  | flush (cx : W) (cx' : W') : SamePoll (.flush cx) (.flush cx')
  | progress (cx : W) (cx' : W') : SamePoll (.progress cx) (.progress cx')

theorem Call.SamePoll.alike {call : Call W} {call' : Call W'} (h : call.SamePoll call')
    (I : Impartial T C W T' C' W' E) : Call.Alike I.lockstep call call' := by
  cases h with
  | read cx cx' buf => exact .read buf trivial
  | write cx cx' buf => exact .write buf trivial
  | flush cx cx' => exact .flush trivial
  | progress cx cx' => exact .progress trivial

/-- Two runs make the same polls in environments that answer alike, and cancel whatever they want
in between. -/
inductive SamePolls (I : Impartial T C W T' C' W' E) :
    List (Action T C W) → List (Action T' C' W') → Prop
  | nil : SamePolls I [] []
  | poll {call : Call W} {call' : Call W'} {list : List (Action T C W)}
      {list' : List (Action T' C' W')} (hcall : call.SamePoll call') (h : SamePolls I list list') :
      SamePolls I (.call call :: list) (.call call' :: list')
  | environment {transport : T} {timer : C} {transport' : T'} {timer' : C'}
      {list : List (Action T C W)} {list' : List (Action T' C' W')}
      (htransport : I.transport transport transport') (htimer : I.timer timer timer')
      (h : SamePolls I list list') :
      SamePolls I (.environment transport timer :: list) (.environment transport' timer' :: list')
  | cancelLeft (operation : PendingOperation) {list : List (Action T C W)}
      {list' : List (Action T' C' W')} (h : SamePolls I list list') :
      SamePolls I (.call (.cancel operation) :: list) list'
  | cancelRight (operation : PendingOperation) {list : List (Action T C W)}
      {list' : List (Action T' C' W')} (h : SamePolls I list list') :
      SamePolls I list (.call (.cancel operation) :: list')

namespace Reliable

variable [Target] [Waker W] [Waker W'] {N : Nat} {s : Reliable T C W E N}
  {s' : Reliable T' C' W' E N}

/-- The steps of a run one after the other, with what its calls return. -/
def replay (s : Reliable T C W E N) :
    List (Action T C W) → Exec (List (Return E) × Reliable T C W E N)
  | [] => some ([], s)
  | .call call :: rest => do
    let (ret, s) ← s.call call
    let (returns, s) ← replay s rest
    some (ret :: returns, s)
  | .environment transport timer :: rest => replay { s with transport, timer } rest

/-- The polls of two runs returned the same, and the connections are alike. -/
def Unaffected (I : Impartial T C W T' C' W' E) (r : List (Return E) × Reliable T C W E N)
    (r' : List (Return E) × Reliable T' C' W' E N) : Prop :=
  r.1.filter Return.polled = r'.1.filter Return.polled ∧ Alike I.lockstep r.2 r'.2

omit [Target] [Waker W] [Waker W'] in
theorem Alike.environment {I : Impartial T C W T' C' W' E} (h : Alike I.lockstep s s')
    {transport : T} {timer : C} {transport' : T'} {timer' : C'}
    (htransport : I.transport transport transport') (htimer : I.timer timer timer') :
    Alike I.lockstep { s with transport, timer }
      { s' with transport := transport', timer := timer' } := by
  cases h with
  | mk _ _ waiters trace hlink hclock =>
      exact .mk (s := { s with transport, timer }) transport' timer' waiters trace
        ⟨htransport, hlink.2⟩ htimer

theorem replay_both {I : Impartial T C W T' C' W' E} {list : List (Action T C W)}
    {list' : List (Action T' C' W')} (hsame : SamePolls I list list')
    (h : Alike I.lockstep s s') :
    Both (Unaffected I) (s.replay list) (s'.replay list') := by
  induction hsame generalizing s s' with
  | nil => exact .ret ⟨rfl, h⟩
  | @poll call call' list list' hcall hrest ih =>
      refine .bind (call_both h (hcall.alike I)) fun r r' hr => ?_
      cases hr with
      | mk ret h₁ =>
          refine .bind (ih h₁) fun q q' hq => .ret ⟨?_, hq.2⟩
          simp only [List.filter_cons, hq.1]
  | environment htransport htimer hrest ih => exact ih (h.environment htransport htimer)
  | cancelLeft operation hrest ih =>
      have hcanceled : Alike I.lockstep ((s.cancelPending operation).log
          (.returned (.cancel operation) .cancelled)) s' :=
        (h.woken_left (cancelPending_woken s operation)).log_left rfl
      refine .bind_left (ih hcanceled) fun q q' hq => ?_
      exact ⟨_, rfl, hq⟩
  | cancelRight operation hrest ih =>
      have hcanceled : Alike I.lockstep s ((s'.cancelPending operation).log
          (.returned (.cancel operation) .cancelled)) :=
        (h.woken_right (cancelPending_woken s' operation)).log_right rfl
      refine .bind_right (ih hcanceled) fun q q' hq => ?_
      exact ⟨_, rfl, hq⟩

/-- Wakers and canceled operations change wakeups only.  Two connections that are the same but for
their environments, in which links and timers answer alike, and that make the same polls, get the
same answers, exchange the same with their transports and stay the same in all but their waiters. -/
theorem unaffected (I : Impartial T C W T' C' W' E) (h : Alike I.lockstep s s')
    {list : List (Action T C W)} {list' : List (Action T' C' W')} (hsame : SamePolls I list list')
    {returns : List (Return E)} {t : Reliable T C W E N}
    (hrun : s.replay list = some (returns, t)) :
    ∃ returns' t', s'.replay list' = some (returns', t') ∧
      returns'.filter Return.polled = returns.filter Return.polled ∧
      exchanged t'.trace = exchanged t.trace ∧ I.transport t.transport t'.transport ∧
      I.timer t.timer t'.timer ∧
      t' = t.transplant t'.transport t'.timer t'.waiters t'.trace := by
  have hboth := replay_both hsame h
  rw [hrun] at hboth
  obtain ⟨r', hrun', hreturns, halike⟩ := hboth.returns
  obtain ⟨returns', t'⟩ := r'
  refine ⟨returns', t', hrun', hreturns.symm, ?_⟩
  cases halike with
  | mk transport timer waiters trace hlink hclock => exact ⟨hlink.2.symm, hlink.1, hclock, rfl⟩

end Reliable

/-- The link and the clock of the tests ask for nobody. -/
def impartialLink : Impartial Link FakeClock Nat Link FakeClock Nat MockError where
  transport := Eq
  timer := Eq
  read cx cx' buf h := by
    subst h
    exact ⟨rfl, rfl⟩
  write cx cx' buf h := by
    subst h
    exact ⟨rfl, rfl⟩
  flush cx cx' h := by
    subst h
    exact ⟨rfl, rfl⟩
  now h := by
    subst h
    exact ⟨rfl, rfl⟩
  deadline cx cx' deadline h := by
    subst h
    exact ⟨rfl, rfl⟩

/-- A DATA frame with one byte of payload, in the session of the tests. -/
def testFrame : List UInt8 :=
  [0, 2, 1, 1, 1, 1, 1, 1, 1, 2, 7, 1, 1, 1, 6, 5, 33, 219, 92, 134, 0]

/-- A read waits until a frame arrives and is polled again.  In the second run it is given up in
between, and other tasks poll. -/
theorem Reliable.unaffected_canceled : letI := target64
    ∃ returns' t', (testConnection []).replay [.call (.read 5 [0, 0]), .call (.cancel .read),
        .environment (.holding testFrame) ⟨3⟩, .call (.read 7 [0, 0])] = some (returns', t') ∧
      (returns'.filter Return.polled).map Return.isPending = [true, false] ∧ t'.rxNext = 1 := by
  let := target64
  obtain ⟨r, hrun⟩ := Option.isSome_iff_exists.mp
    (show ((testConnection []).replay [.call (.read 1 [0, 0]),
      .environment (.holding testFrame) ⟨3⟩, .call (.read 1 [0, 0])]).isSome by decide +kernel)
  have hresult : ((testConnection []).replay [.call (.read 1 [0, 0]),
      .environment (.holding testFrame) ⟨3⟩, .call (.read 1 [0, 0])]).map
        (fun r => ((r.1.filter Return.polled).map Return.isPending, r.2.rxNext)) =
          some ([true, false], 1) := by decide +kernel
  rw [hrun] at hresult
  obtain ⟨hreturns, hnext⟩ := Prod.mk.inj (Option.some.inj hresult)
  obtain ⟨returns', t', hrun', hreturns', -, -, -, htransplant⟩ :=
    Reliable.unaffected impartialLink (.mk _ _ _ _ ⟨rfl, rfl⟩ rfl)
      (.poll (.read 1 5 [0, 0]) (.cancelRight .read (.environment rfl rfl
        (.poll (.read 1 7 [0, 0]) .nil)))) hrun
  refine ⟨returns', t', hrun', by rw [hreturns', hreturns], ?_⟩
  rw [htransplant]
  exact hnext

end CobsIoAsync.Connection
