import CobsIoAsync.Connection.Acknowledge
import CobsIoAsync.Network.Carrier

/-!
# Network.Session — other sessions on the medium

A medium may also carry frames of other sessions: of connections that share it, or that used it
before.  A connection ignores them, whole or with one byte that is not a code replaced by another
nonzero byte, so that two connections of one session get along as if they were alone.  And a
connection that parses no packet of its own session stays where it was.
-/

namespace CobsIoAsync.Connection

open Reasoning Protocol

variable [Target] {T C W E : Type} [Waker W] [Transport T W E] [Timer C W] {N : Nat}
  {T' C' W' E' : Type} [Waker W'] [Transport T' W' E'] [Timer C' W'] {N' : Nat}

/-- What a medium may hand over in one piece to a connection of a session, when the other side has
logged `theirs`. -/
inductive Piece (session : UInt64) (theirs : List (Event W E)) : List UInt8 → Prop
  | own {chunk : List UInt8} (h : Delivery theirs chunk) : Piece session theirs chunk
  /-- Something of any connection in another session. -/
  | foreign {T₀ C₀ W₀ E₀ : Type} [Waker W₀] [Transport T₀ W₀ E₀] [Timer C₀ W₀] {N₀ : Nat}
      {u : Reliable T₀ C₀ W₀ E₀ N₀} {chunk : List UInt8} (hu : u.Reachable)
      (hsession : u.config.session ≠ session) (h : Delivery u.trace chunk) :
      Piece session theirs chunk

/-- A stream of such pieces in any order, the last of them perhaps in part. -/
def Shared (session : UInt64) (theirs : List (Event W E)) (stream : List UInt8) : Prop :=
  ∃ chunks : List (List UInt8), (∀ chunk ∈ chunks, Piece session theirs chunk) ∧
    stream <+: chunks.flatten

/-- Over a shared medium a connection parses nothing of its session but what the other side
encoded. -/
theorem Shared.trusts {s : Reliable T C W E N} {t : Reliable T' C' W' E' N'} (hs : s.Reachable)
    (ht : t.Reachable) (h : Shared t.config.session s.trace (received t.trace)) :
    t.Trusts s.trace := by
  intro packet hparsed hsession
  obtain ⟨chunks, hchunks, hreceived⟩ := h
  have htail : ∀ chunk ∈ chunks, Segments.tail 0 chunk = [] := by
    intro chunk hchunk
    cases hchunks chunk hchunk with
    | own hown => exact hown.tail hs
    | foreign hu _ hforeign => exact hforeign.tail hu
  obtain ⟨chunk, hchunk, body, hbody, hpacket⟩ := ht.parsed_piece htail hreceived hparsed
  cases hchunks chunk hchunk with
  | own hown => exact (hown.encoded hs hbody hpacket).1
  | foreign hu hother hforeign =>
      exact absurd ((hforeign.encoded hu hbody hpacket).2.symm.trans hsession) hother

/-! ## Two connections of one session -/

/-- Links over a medium that other sessions share. -/
def Links.sharing : Links T C W E N T' C' W' E' N' where
  toLeft a theirs := Shared a.config.session theirs (received a.trace)
  toRight b theirs := Shared b.config.session theirs (received b.trace)

theorem Links.sharing_faithful :
    (Links.sharing : Links T C W E N T' C' W' E' N').Faithful :=
  ⟨fun ha hb hshared => hshared.trusts hb ha, fun ha hb hshared => hshared.trusts ha hb⟩

namespace Session

/-- The states of two connections on such a medium. -/
def Reachable (p : Peers T C W E N T' C' W' E' N') : Prop := p.ReachableOver .sharing

/-- Whatever other sessions put on the medium, each side parses nothing of the session but what the
other one encoded, reads a beginning of what the other one wrote, and all of it when the other one
is idle. -/
theorem Reachable.isolated {p : Peers T C W E N T' C' W' E' N'} (h : Reachable p) :
    p.Arrives ∧ p.swap.Arrives :=
  h.arrives Links.sharing_faithful

/-- A connection of another session writes a byte. -/
def stranger : letI := target64; Exec (Reliable Link FakeClock Nat MockError 21) :=
  letI := target64
  do
    let (_, u) ← Reliable.call (.initial 21 (.holding []) ⟨0⟩ ⟨8, 10, 2⟩) (.write 1 [9])
    some u

omit [Target] in
theorem reachable_stranger {u : Reliable Link FakeClock Nat MockError 21}
    (h : letI := target64; stranger = some u) : letI := target64; u.Reachable := by
  let := target64
  unfold stranger at h
  simp only [Option.bind_eq_bind, Option.bind_eq_some_iff, Prod.exists, Option.some.injEq] at h
  obtain ⟨ret, u, hu, rfl⟩ := h
  exact ⟨.holding [], ⟨0⟩, ⟨8, 10, 2⟩, _, rfl, .single (.call hu)⟩

/-- One side writes a byte too, and its frame arrives behind that of the stranger. -/
def mixed : letI := target64; Exec (Reliable Link FakeClock Nat MockError 21 × Peers.OverLinks) :=
  letI := target64
  do
    let u ← stranger
    let (_, a) ← (testConnection []).call (.write 1 [5])
    let stream := u.transport.outgoing ++ a.transport.outgoing
    let b := { testConnection [] with transport := Link.holding stream }
    let (_, b) ← b.call (.read 2 [0, 0])
    some (u, ⟨a, b⟩)

omit [Target] in
theorem reachable_of_mixed {u : Reliable Link FakeClock Nat MockError 21} {p : Peers.OverLinks}
    (h : letI := target64; mixed = some (u, p)) (hsession : u.config.session ≠ p.b.config.session)
    (hforeign : (startedFrames u.trace).map Sent.bytes = [u.transport.outgoing])
    (hsilent : received p.a.trace = [])
    (hframe : (startedFrames p.a.trace).map Sent.bytes = [p.a.transport.outgoing])
    (hstream : received p.b.trace = u.transport.outgoing ++ p.a.transport.outgoing) :
    letI := target64; Reachable p := by
  let := target64
  unfold mixed at h
  simp only [Option.bind_eq_bind, Option.bind_eq_some_iff, Prod.exists, Option.some.injEq,
    Prod.mk.injEq] at h
  obtain ⟨u, hu, _, a, ha, _, b, hb, rfl, rfl⟩ := h
  obtain ⟨f, hf, hbytes⟩ : ∃ f ∈ startedFrames a.trace, f.bytes = a.transport.outgoing :=
    List.mem_map.mp (hframe ▸ List.mem_singleton_self _)
  obtain ⟨g, hg, hbytes'⟩ : ∃ g ∈ startedFrames u.trace, g.bytes = u.transport.outgoing :=
    List.mem_map.mp (hforeign ▸ List.mem_singleton_self _)
  have hnothing : ∀ session (trace : List (Event Nat MockError)), Shared session trace [] :=
    fun session trace => ⟨[], by simp, List.prefix_rfl⟩
  refine ⟨⟨testConnection [], testConnection []⟩, ?_, ?_⟩
  · exact ⟨.holding [], ⟨0⟩, testConfig, .holding [], ⟨0⟩, testConfig, rfl, rfl, rfl⟩
  have hfirst : Shared a.config.session (testConnection []).trace (received a.trace) := by
    rw [hsilent]
    exact hnothing _ _
  refine .head (.left (.call ha) hfirst) (.head (.right (.environment _ (.holding
    (u.transport.outgoing ++ a.transport.outgoing)) ⟨0⟩) (hnothing _ _)) (.single
      (.right (.call hb) ⟨[g.bytes, f.bytes], ?_, ?_⟩)))
  · simp only [List.mem_cons, List.not_mem_nil, or_false, forall_eq_or_imp, forall_eq]
    exact ⟨.foreign (reachable_stranger hu) hsession (.frame hg), .own (.frame hf)⟩
  · rw [hstream, hbytes, hbytes']
    simp

omit [Target] in
/-- The byte of the stranger is not read. -/
theorem isolated_mixed : letI := target64
    ∃ u p, mixed = some (u, p) ∧ readOut p.b.trace = [5] ∧
      readOut p.b.trace <+: (written p.a.trace).flatten := by
  let := target64
  have hstate : mixed.map (fun r => (readOut r.2.b.trace, received r.2.a.trace,
      decide (r.1.config.session ≠ r.2.b.config.session),
      decide ((startedFrames r.1.trace).map Sent.bytes = [r.1.transport.outgoing]),
      decide ((startedFrames r.2.a.trace).map Sent.bytes = [r.2.a.transport.outgoing]),
      decide (received r.2.b.trace =
        r.1.transport.outgoing ++ r.2.a.transport.outgoing))) =
        some ([5], [], true, true, true, true) := by
    decide +kernel
  obtain ⟨⟨u, p⟩, hp, hstate⟩ := Option.map_eq_some_iff.mp hstate
  simp only [Prod.mk.injEq] at hstate
  obtain ⟨hread, hsilent, hsession, hforeign, hframe, hstream⟩ := hstate
  have hreach := reachable_of_mixed hp (of_decide_eq_true hsession) (of_decide_eq_true hforeign)
    hsilent (of_decide_eq_true hframe) (of_decide_eq_true hstream)
  obtain ⟨harrives, -⟩ := hreach.isolated
  exact ⟨u, p, hp, hread, harrives.readOut_prefix⟩

end Session

/-! ## One connection without a peer -/

namespace Reliable

variable {s : Reliable T C W E N}

omit [Waker W] in
/-- No packet is taken before one is retained. -/
theorem takenCount_of_none {session : UInt64} {trace : List (Event W E)}
    (hretained : retained trace = []) : takenCount N session 0 trace = 0 := by
  refine takenCount_eq_zero fun front event back hsplit => ?_
  rw [hsplit, retained_append, ← List.singleton_append, retained_append] at hretained
  obtain ⟨hfront, hback⟩ := List.append_eq_nil_iff.mp hretained
  rw [hfront]
  cases event with
  | retained seq payload => cases (List.append_eq_nil_iff.mp hback).1
  | parsed packet => cases packet <;> simp [Event.takes]
  | _ => rfl

/-- No packet of the own session was parsed. -/
def Unheard (s : Reliable T C W E N) : Prop :=
  ∀ packet ∈ parsed s.trace, packet.session ≠ s.config.session

instance (s : Reliable T C W E N) : Decidable s.Unheard :=
  inferInstanceAs (Decidable (∀ packet ∈ parsed s.trace, packet.session ≠ s.config.session))

/-- Who hears nothing of the own session could be talking to a connection that does nothing. -/
theorem Reachable.alone (h : Reachable s) (hunheard : s.Unheard) :
    ∃ s₀ : Reliable T C W E N, s₀.trace = [] ∧ Peers.Sound ⟨s₀, s⟩ := by
  have hsound := h.sound
  obtain ⟨transport, timer, config, s₀, hnew, hrun⟩ := id h
  have hfresh : Reachable s₀ := ⟨transport, timer, config, s₀, hnew, .refl⟩
  have hconfig := (hrun.moves hfresh.sound).config
  obtain ⟨-, rfl⟩ := new_eq_ok.mp hnew
  refine ⟨_, rfl, hfresh, h, by rw [hconfig]; rfl, ?_, ?_⟩
  · simp [Reliable.Trusts, parsed]
  · exact fun packet hparsed hsession => absurd hsession (hunheard packet hparsed)

/-- A connection that parses no packet of its own session reads and acknowledges nothing, accepts
one packet at most, which stays in flight, and does not flush, whatever it receives. -/
theorem Reachable.unanswered (h : Reachable s) (hunheard : s.Unheard) :
    readOut s.trace = [] ∧ retained s.trace = [] ∧ acks s.trace = 0 ∧ s.ackPending = none ∧
      (written s.trace).length ≤ 1 ∧ (s.tx = .idle → written s.trace = []) ∧
      ∀ cx s', s.call (.flush cx) = some (.flush (.ready (.ok ())), s') → s'.Unheard →
        written s'.trace = [] := by
  obtain ⟨s₀, htrace, hpeers⟩ := h.alone hunheard
  have hqueued : queued s₀.trace = [] := by rw [htrace]; rfl
  have hretained : retained s.trace = [] := by
    have hprefix := hpeers.paired.retained_prefix
    rwa [hqueued, List.prefix_nil] at hprefix
  have hread : readOut s.trace = [] := by
    have hprefix := hpeers.paired.delivered_prefix
    rwa [hqueued, List.flatten_nil, List.prefix_nil, ← h.accounts.readOut_eq] at hprefix
  have hidle : ∀ {t : Reliable T C W E N}, Reachable t → t.Unheard → t.tx = .idle →
      written t.trace = [] := by
    intro t ht hunheard htx
    obtain ⟨t₀, htrace, hpeers⟩ := ht.alone hunheard
    have hall : retained t₀.trace = queued t.trace := hpeers.swap.paired.retained_eq htx
    rw [ht.accounts.written_eq, ← hall, htrace]
    rfl
  -- the acknowledgements are counted by the packets that were taken
  have hcount := (h.visited covers_act).owed.count
  rw [takenCount_of_none hretained] at hcount
  refine ⟨hread, hretained, by omega, ?_, ?_, hidle h hunheard, fun cx s' hcall hunheard' => ?_⟩
  · cases hack : s.ackPending with
    | none => rfl
    | some seq =>
        rw [hack, Option.isSome_some, if_pos rfl] at hcount
        omega
  · have hle : (queued s.trace).length ≤ (retained s₀.trace).length + 1 :=
      hpeers.swap.paired.queued_length_le
    rwa [htrace, ← h.accounts.written_eq] at hle
  · have hready := flushReady_iff.mp (h.sound.flush hcall)
    exact hidle (h.run (.single (.call hcall))) hunheard' hready.1

omit [Target] in
/-- A packet is written while noise and the frame of a stranger arrive. -/
theorem unanswered_noise : letI := target64
    ∃ u s, Session.stranger = some u ∧ (testConnection (1 :: 2 :: u.transport.outgoing)).calls
      [.write 1 [5], .read 1 [0, 0], .read 1 [0, 0]] = some s ∧
        received s.trace = 1 :: 2 :: u.transport.outgoing ∧ (parsed s.trace).length = 1 ∧
          readOut s.trace = [] ∧ acks s.trace = 0 ∧ (written s.trace).length = 1 ∧
            s.tx ≠ .idle := by
  let := target64
  let heard := Session.stranger.bind fun u =>
    ((testConnection (1 :: 2 :: u.transport.outgoing)).calls
      [.write 1 [5], .read 1 [0, 0], .read 1 [0, 0]]).map (u, ·)
  have hstate : heard.map (fun r => ((written r.2.trace).length, (parsed r.2.trace).length,
      decide (received r.2.trace = 1 :: 2 :: r.1.transport.outgoing), decide r.2.Unheard)) =
        some (1, 1, true, true) := by
    decide +kernel
  obtain ⟨⟨u, s⟩, hrun, hstate⟩ := Option.map_eq_some_iff.mp hstate
  simp only [Prod.mk.injEq] at hstate
  obtain ⟨hwritten, hparsed, hreceived, hunheard⟩ := hstate
  simp only [heard, Option.bind_eq_some_iff, Option.map_eq_some_iff, Prod.mk.injEq] at hrun
  obtain ⟨u, hu, s, hs, rfl, rfl⟩ := hrun
  obtain ⟨hread, -, hacks, -, -, hidle, -⟩ :=
    Reachable.unanswered (reachable_testConnection hs) (of_decide_eq_true hunheard)
  refine ⟨u, s, hu, hs, of_decide_eq_true hreceived, hparsed, hread, hacks, hwritten, fun htx => ?_⟩
  rw [hidle htx] at hwritten
  cases hwritten

end Reliable

end CobsIoAsync.Connection
