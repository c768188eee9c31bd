import CobsIoAsync.Connection.Poll

/-!
# Connection.Link — the link and the clock of the tests

The transport and the timer that the tests of the repository drive connections with, as far as
runs on concrete inputs need them.
-/

namespace CobsIoAsync.Connection

open Reasoning

/-- Compared by number. -/
instance : Waker Nat := ⟨fun held waker => held == waker⟩

/-- `MockError`. -/
structure MockError where
  deriving DecidableEq

/-- `Endpoint`: the queue of its incoming pipe, whether that pipe is closed, the bytes written to
its outgoing pipe, and the controls of the tests. -/
structure Link where
  incoming : List UInt8
  closed : Bool
  outgoing : List UInt8
  writesBlocked : Bool
  deriving DecidableEq

/-- A link with some incoming bytes. -/
def Link.holding (incoming : List UInt8) : Link := ⟨incoming, false, [], false⟩

instance : Transport Link Nat MockError where
  pollRead {n} link _ buf :=
    if link.incoming = [] then (link, buf, if link.closed then .ready (.ok 0) else .pending)
    else
      let bytes := link.incoming.take n
      match buf.copyFromSlice 0 bytes.length bytes with
      | some buf => ({ link with incoming := link.incoming.drop n }, buf, .ready (.ok bytes.length))
      | none => (link, buf, .pending)
  pollWrite link _ buf :=
    if link.writesBlocked then (link, .pending)
    else ({ link with outgoing := link.outgoing ++ buf }, .ready (.ok buf.length))
  pollFlush link _ := (link, .ready (.ok ()))

/-- `FakeClock`. -/
structure FakeClock where
  now : UInt64
  deriving DecidableEq

instance : Timer FakeClock Nat where
  now clock := (clock, clock.now)
  pollDeadline clock _ deadline := (clock, if deadline ≤ clock.now then .ready () else .pending)

namespace Reliable

variable [Target] {T C W E : Type} [Waker W] [Transport T W E] [Timer C W] {N : Nat}

/-- Calls one after the other, and what the last one returns. -/
def calls (s : Reliable T C W E N) : List (Call W) → Exec (Reliable T C W E N)
  | [] => some s
  | c :: rest => do
    let (_, s) ← s.call c
    calls s rest

theorem run_of_calls {s s' : Reliable T C W E N} {list : List (Call W)}
    (h : s.calls list = some s') : Run s s' := by
  induction list generalizing s with
  | nil =>
      obtain rfl := Option.some.inj h
      exact .refl
  | cons c rest ih =>
      obtain ⟨⟨ret, s₁⟩, hcall, hrest⟩ := Option.bind_eq_some_iff.mp h
      exact .head (.call hcall) (ih hrest)

/-- Calls one after the other, each at a time that the clock of the tests is set to. -/
def callsAt [Timer FakeClock W] (s : Reliable T FakeClock W E N) :
    List (UInt64 × Call W) → Exec (Reliable T FakeClock W E N)
  | [] => some s
  | (time, c) :: rest => do
    let (_, s) ← call { s with timer := FakeClock.mk time } c
    callsAt s rest

theorem run_of_callsAt [Timer FakeClock W] {s s' : Reliable T FakeClock W E N}
    {list : List (UInt64 × Call W)} (h : s.callsAt list = some s') : Run s s' := by
  induction list generalizing s with
  | nil =>
      obtain rfl := Option.some.inj h
      exact .refl
  | cons head rest ih =>
      obtain ⟨⟨ret, s₁⟩, hcall, hrest⟩ := Option.bind_eq_some_iff.mp h
      exact .head (.environment s s.transport (FakeClock.mk head.1)) (.head (.call hcall) (ih hrest))

end Reliable

/-- The configuration of the tests. -/
def testConfig : Config := ⟨7, 10, 2⟩

/-- A connection with the smallest buffers, over a link and a clock of the tests. -/
def testConnection (incoming : List UInt8) : Reliable Link FakeClock Nat MockError 21 :=
  .initial 21 (.holding incoming) ⟨0⟩ testConfig

theorem reachable_testConnection {incoming : List UInt8} {list : List (Call Nat)}
    {s : Reliable Link FakeClock Nat MockError 21} (h : letI := target64
      (testConnection incoming).calls list = some s) : letI := target64; s.Reachable :=
  let := target64
  ⟨_, _, _, testConnection incoming, rfl, Reliable.run_of_calls h⟩

end CobsIoAsync.Connection
