import CobsIoAsync.Connection.Peers
import CobsIoAsync.Reasoning.Channel

/-!
# Network.Channel — two connections as a bounded channel

What one side wrote and the other one has not read is the contents of a channel.  There is room in
it for the packet in flight and for the payload slot of the receiver, and every step of the two
connections is an action of the channel.
-/

namespace CobsIoAsync.Connection

open Reasoning Protocol

variable {T C W E : Type} {N : Nat}
variable {T' C' W' E' : Type} {N' : Nat}

/-! ## What is on its way -/

variable {a : Reliable T C W E N} {b : Reliable T' C' W' E' N'}
variable [Target]

theorem Reliable.Inv.unread_le (h : Reliable.Inv a) :
    a.unread.length ≤ Reliable.maxPayload N := by
  have := h.rxEnd_le
  rw [Reliable.unread, List.length_drop, List.length_take]
  omega

/-- At most one packet was queued and not retained by the other side. -/
theorem Paired.pending_le (h : Paired a b) :
    ((queued a.trace).drop (retained b.trace).length).flatten.length ≤ Reliable.maxPayload N := by
  by_cases hidle : a.tx = .idle
  · rw [h.retained_eq hidle, List.drop_length]
    exact Nat.zero_le _
  · obtain ⟨payload, hlast, hlen, -⟩ := h.left.history.frame (.inl hidle)
    obtain ⟨front, hqueued⟩ := List.getLast?_eq_some_iff.mp hlast
    have hlength := h.queued_length_le
    rw [hqueued, List.length_append, List.length_singleton, Nat.add_le_add_iff_right] at hlength
    rw [hqueued, List.drop_append, List.drop_of_length_le hlength, List.nil_append]
    cases (retained b.trace).length - front.length with
    | zero => simpa using hlen
    | succ n => simp

namespace Peers

variable {p p' : Peers T C W E N T' C' W' E' N'}
variable [Waker W] [Transport T W E] [Timer C W] [Waker W'] [Transport T' W' E'] [Timer C' W']

/-- The bytes that were written on the left and not yet read on the right. -/
def transit (p : Peers T C W E N T' C' W' E' N') : List UInt8 :=
  (written p.a.trace).flatten.drop (readOut p.b.trace).length

/-- The packet in flight and the payload slot. -/
def capacity (_p : Peers T C W E N T' C' W' E' N') : Nat :=
  Reliable.maxPayload N + Reliable.maxPayload N'

theorem Sound.written_eq (h : Sound p) :
    (written p.a.trace).flatten = readOut p.b.trace ++ p.transit :=
  (List.prefix_iff_eq_append.mp h.arrives.readOut_prefix).symm

/-- The slot comes first, and then the packet in flight. -/
theorem Sound.transit_eq (h : Sound p) : p.transit =
    p.b.unread ++ ((queued p.a.trace).drop (retained p.b.trace).length).flatten := by
  have hslot := h.right.history.slot
  unfold Reliable.SlotHolds at hslot
  obtain ⟨rest, hrest⟩ := h.paired.retained_prefix
  have hwritten := h.written_eq
  rw [h.left.accounts.written_eq, h.right.accounts.readOut_eq, ← hrest, List.flatten_append,
    ← hslot, List.append_assoc, List.append_cancel_left_eq] at hwritten
  rw [← hwritten, ← hrest, List.drop_left]

theorem Sound.transit_le (h : Sound p) : p.transit.length ≤ p.capacity := by
  rw [h.transit_eq, List.length_append, capacity]
  have hunread := h.right.sound.inv.unread_le
  have hpending := h.paired.pending_le
  omega

/-! ## Steps -/

/-- Between two states the left side accepts what an action puts, and the right side returns what
it gets. -/
structure Transfers (p : Peers T C W E N T' C' W' E' N') (action : Channel.Action UInt8)
    (p' : Peers T C W E N T' C' W' E' N') : Prop where
  written_eq : (written p'.a.trace).flatten = (written p.a.trace).flatten ++ action.puts
  readOut_eq : readOut p'.b.trace = readOut p.b.trace ++ action.gets

/-- A step is an action of the channel. -/
theorem Sound.refines (h : Sound p) (hstep : Step p p') :
    ∃ action, Channel.Step p.capacity p.transit action p'.transit ∧ Transfers p action p' := by
  have h' := h.step hstep
  have hwritten := h.written_eq
  have hwritten' := h'.written_eq
  have hroom := h'.transit_le
  cases hstep with
  | @left a hnext htrust =>
      obtain ⟨events, htrace⟩ := (hnext.moves h.left.sound).trace
      have hputs : (written a.trace).flatten =
          (written p.a.trace).flatten ++ (written events).flatten := by
        rw [← htrace, written_append, List.flatten_append]
      rw [hputs, hwritten, List.append_assoc, List.append_cancel_left_eq] at hwritten'
      rw [← hwritten'] at hroom ⊢
      rw [List.length_append] at hroom
      exact ⟨.put (written events).flatten, .put _ _ hroom, hputs, (List.append_nil _).symm⟩
  | @right b hnext htrust =>
      obtain ⟨events, htrace⟩ := (hnext.moves h.right.sound).trace
      have hgets : readOut b.trace = readOut p.b.trace ++ readOut events := by
        rw [← htrace, readOut_append]
      rw [hwritten, hgets, List.append_assoc, List.append_cancel_left_eq] at hwritten'
      rw [hwritten']
      exact ⟨.get (readOut events), .get _ _, (List.append_nil _).symm, hgets⟩

/-- A run is a run of the channel. -/
theorem Reachable.channel (h : Reachable p) :
    ∃ actions, Channel.Run p.capacity [] actions p.transit ∧
      (written p.a.trace).flatten = actions.flatMap Channel.Action.puts ∧
        readOut p.b.trace = actions.flatMap Channel.Action.gets := by
  obtain ⟨p₀, hstart, hrun⟩ := h
  induction hrun with
  | refl =>
      have hwritten : written p₀.a.trace = [] := by rw [hstart.trace.1]; rfl
      have hread : readOut p₀.b.trace = [] := by rw [hstart.trace.2]; rfl
      refine ⟨[], ?_, by simp [hwritten], by simp [hread]⟩
      rw [transit, hwritten, hread]
      exact .nil []
  | @tail p₁ p₂ hbefore hstep ih =>
      obtain ⟨actions, hactions, hwritten, hread⟩ := ih
      have hsound : Sound p₁ := Reachable.sound ⟨p₀, hstart, hbefore⟩
      obtain ⟨action, haction, hputs, hgets⟩ := hsound.refines hstep
      refine ⟨actions ++ [action], hactions.snoc haction, ?_, ?_⟩
      · rw [hputs, hwritten, List.flatMap_append, List.flatMap_singleton]
      · rw [hgets, hread, List.flatMap_append, List.flatMap_singleton]

/-- The run of the two connections so far is a run of the channel, and so is every step from
here. -/
structure Simulates (p : Peers T C W E N T' C' W' E' N') : Prop where
  run : ∃ actions, Channel.Run p.capacity [] actions p.transit ∧
    (written p.a.trace).flatten = actions.flatMap Channel.Action.puts ∧
      readOut p.b.trace = actions.flatMap Channel.Action.gets
  step : ∀ p', Step p p' →
    ∃ action, Channel.Step p.capacity p.transit action p'.transit ∧ Transfers p action p'

/-- A writer is never further ahead of its reader than the channel is long. -/
theorem Simulates.ahead_le (h : Simulates p) :
    (written p.a.trace).flatten.length ≤ (readOut p.b.trace).length + p.capacity := by
  obtain ⟨actions, hrun, hwritten, hread⟩ := h.run
  have hconserves := congrArg List.length hrun.conserves
  have hbounded := hrun.bounded (Nat.zero_le _)
  rw [List.nil_append, ← hwritten, ← hread, List.length_append] at hconserves
  omega

theorem Reachable.swap (h : Reachable p) : Reachable p.swap := ReachableOver.swap h

/-- Two connections are a bounded channel in either direction. -/
theorem Reachable.simulates (h : Reachable p) : Simulates p ∧ Simulates p.swap :=
  ⟨⟨h.channel, fun _ => h.sound.refines⟩, ⟨h.swap.channel, fun _ => h.swap.sound.refines⟩⟩

omit [Target] in
/-- A payload arrives in two parts, and the second one is still on its way. -/
theorem simulates_partly : letI := target64
    ∃ p, play .trusting [.a (.write 1 [5]), .carry, .b (.read 2 [0]), .carry,
      .a (.write 1 [6])] = some p ∧ p.transit = [6] ∧ Simulates p ∧ Simulates p.swap := by
  let := target64
  let actions : List Action :=
    [.a (.write 1 [5]), .carry, .b (.read 2 [0]), .carry, .a (.write 1 [6])]
  have hstate : (play .trusting actions).map transit = some [6] := by decide +kernel
  obtain ⟨p, hp, htransit⟩ := Option.map_eq_some_iff.mp hstate
  exact ⟨p, hp, htransit, Reachable.simulates (play_reachable hp)⟩

end Peers

end CobsIoAsync.Connection
