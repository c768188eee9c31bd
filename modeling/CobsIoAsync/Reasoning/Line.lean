import Mathlib.Data.List.Basic
import Mathlib.Data.List.Induction
import Mathlib.Tactic.Common

/-!
# Line — a serial line that carries one frame at a time

A frame is started on an idle line, its bytes are accepted piece by piece, and a flush behind the
last byte makes the line idle again.  A history of such events that a line can follow puts whole
frames on the wire, one after the other, and at most one of them in part.
-/

namespace CobsIoAsync.Reasoning.Line

variable {β : Type}

/-- What happens on a line. -/
inductive Event (β : Type) where
  | start (frame : List β)
  | accept (piece : List β)
  | flush

/-- Where a line is. -/
inductive State (β : Type) where
  | idle
  | writing (frame : List β) (offset : Nat)
  | flushing (frame : List β)
  deriving DecidableEq

/-- One event. -/
inductive Step : State β → Event β → State β → Prop
  | start (frame : List β) : Step .idle (.start frame) (.writing frame 0)
  | accept {frame piece : List β} {offset : Nat} (hpiece : piece <+: frame.drop offset)
      (hmore : offset + piece.length ≠ frame.length) :
      Step (.writing frame offset) (.accept piece) (.writing frame (offset + piece.length))
  | finish {frame piece : List β} {offset : Nat} (hpiece : piece = frame.drop offset) :
      Step (.writing frame offset) (.accept piece) (.flushing frame)
  | flush (frame : List β) : Step (.flushing frame) .flush .idle

/-- The histories of a line that was idle at first. -/
inductive Run : List (Event β) → State β → Prop
  | nil : Run [] .idle
  | snoc {events : List (Event β)} {event : Event β} {state state' : State β}
      (hrun : Run events state) (hstep : Step state event state') :
      Run (events ++ [event]) state'

/-- The bytes on the wire. -/
def accepted (events : List (Event β)) : List β := events.flatMap fun
  | .accept piece => piece
  | _ => []

/-- The frames that were started. -/
def started (events : List (Event β)) : List (List β) := events.filterMap fun
  | .start frame => some frame
  | _ => none

theorem accepted_append (events events' : List (Event β)) :
    accepted (events ++ events') = accepted events ++ accepted events' := List.flatMap_append

theorem accepted_piece (piece : List β) : accepted [.accept piece] = piece := by simp [accepted]

theorem started_append (events events' : List (Event β)) :
    started (events ++ events') = started events ++ started events' := List.filterMap_append

/-- The frame in progress and the part of it that is on the wire. -/
def State.current : State β → List (List β)
  | .idle => []
  | .writing frame _ => [frame]
  | .flushing frame => [frame]

def State.part : State β → List β
  | .idle => []
  | .writing frame offset => frame.take offset
  | .flushing frame => frame

/-- The part never exceeds the frame. -/
theorem State.part_prefix (state : State β) : state.part <+: state.current.flatten := by
  cases state with
  | idle => exact List.prefix_rfl
  | writing frame offset => simpa [part, current] using List.take_prefix offset frame
  | flushing frame => simp [part, current]

/-- The wire carries the finished frames and then the part of the current one. -/
theorem Run.wire {events : List (Event β)} {state : State β} (h : Run events state) :
    ∃ done, started events = done ++ state.current ∧
      accepted events = done.flatten ++ state.part := by
  induction h with
  | nil => exact ⟨[], rfl, rfl⟩
  | @snoc events event state state' _ hstep ih =>
      obtain ⟨done, hstarted, haccepted⟩ := ih
      rw [started_append, accepted_append, hstarted, haccepted]
      cases hstep with
      | start frame =>
          exact ⟨done, by simp [started, State.current], by simp [accepted, State.part]⟩
      | @accept frame piece offset hpiece hmore =>
          refine ⟨done, by simp [started, State.current], ?_⟩
          simp only [State.part, accepted_piece, List.append_assoc]
          rw [List.take_add, ← List.prefix_iff_eq_take.mp hpiece]
      | @finish frame piece offset hpiece =>
          refine ⟨done, by simp [started, State.current], ?_⟩
          simp [accepted_piece, State.part, hpiece]
      | flush frame =>
          exact ⟨done ++ [frame], by simp [started, State.current], by simp [accepted, State.part]⟩

/-- The number of flushes. -/
def flushes (events : List (Event β)) : Nat := events.countP fun
  | .flush => true
  | _ => false

theorem flushes_append (events events' : List (Event β)) :
    flushes (events ++ events') = flushes events + flushes events' := List.countP_append

/-- Every frame that was started is flushed once, unless it is in progress. -/
theorem Run.flushes_eq {events : List (Event β)} {state : State β} (h : Run events state) :
    flushes events + state.current.length = (started events).length := by
  induction h with
  | nil => rfl
  | snoc _ hstep ih =>
      rw [flushes_append, started_append, List.length_append, ← ih]
      cases hstep with
      | flush => simp [flushes, started, State.current]
      | _ => simp [flushes, started, State.current, Nat.add_comm]

/-- A beginning of a history is a history. -/
theorem Run.before {events rest : List (Event β)} {state : State β} (h : Run (events ++ rest) state) :
    ∃ state', Run events state' := by
  induction rest using List.reverseRecOn generalizing state with
  | nil => exact ⟨state, by simpa using h⟩
  | append_singleton rest event ih =>
      rw [← List.append_assoc] at h
      generalize hall : events ++ rest ++ [event] = all at h
      cases h with
      | nil => simp at hall
      | snoc hrun hstep =>
          obtain ⟨rfl, -⟩ := List.append_inj' hall rfl
          exact ih hrun

/-- A started frame is in progress until it was accepted completely and then flushed, and no other
frame is started before. -/
theorem Run.finished {events before after : List (Event β)} {frame : List β} {state : State β}
    (h : Run events state) (hsplit : events = before ++ .start frame :: after) :
    (∃ sent rest, after = sent ++ Event.flush :: rest ∧ accepted sent = frame ∧ started sent = []) ∨
      state.current = [frame] ∧ accepted after = state.part ∧ started after = [] := by
  induction h generalizing after with
  | nil => simp at hsplit
  | @snoc events event state state' _ hstep ih =>
      -- The frame was started by the last event, or before it and the hypothesis applies.
      rcases List.eq_nil_or_concat after with rfl | ⟨after, last, rfl⟩
      · obtain ⟨rfl, hevent⟩ := List.append_inj' hsplit rfl
        obtain rfl := List.singleton_inj.mp hevent
        cases hstep
        exact .inr ⟨rfl, rfl, rfl⟩
      · rw [List.concat_eq_append, ← List.cons_append, ← List.append_assoc] at hsplit
        obtain ⟨hevents, hevent⟩ := List.append_inj' hsplit rfl
        obtain rfl := List.singleton_inj.mp hevent
        rw [List.concat_eq_append]
        rcases ih hevents with ⟨sent, rest, rfl, hsent⟩ | ⟨hcurrent, haccepted, hstarted⟩
        · exact .inl ⟨sent, rest ++ [event], by simp, hsent⟩
        · rw [accepted_append, haccepted, started_append, hstarted, List.nil_append]
          cases hstep with
          | start => simp [State.current] at hcurrent
          | @accept frame' piece offset hpiece =>
              refine .inr ⟨hcurrent, ?_, rfl⟩
              simp only [State.part, accepted_piece]
              rw [List.take_add, ← List.prefix_iff_eq_take.mp hpiece]
          | finish hpiece =>
              refine .inr ⟨hcurrent, ?_, rfl⟩
              simp [accepted_piece, State.part, hpiece]
          | flush frame' =>
              obtain rfl := List.singleton_inj.mp hcurrent
              exact .inl ⟨after, [], rfl, haccepted, hstarted⟩

/-- The frame in progress is the one that was started last. -/
theorem Run.progress {events : List (Event β)} {state : State β} (h : Run events state)
    {frame : List β} (hcurrent : state.current = [frame]) :
    ∃ before after, events = before ++ .start frame :: after ∧ started after = [] ∧
      accepted after = state.part := by
  induction h with
  | nil => cases hcurrent
  | @snoc events event state state' hrun hstep ih =>
      cases hstep with
      | start frame' =>
          obtain rfl := List.singleton_inj.mp hcurrent
          exact ⟨events, [], rfl, rfl, rfl⟩
      | @accept frame' piece offset hpiece =>
          obtain ⟨before, after, rfl, hstarted, haccepted⟩ := ih hcurrent
          refine ⟨before, after ++ [.accept piece], by simp, ?_, ?_⟩
          · rw [started_append, hstarted]
            rfl
          · rw [accepted_append, haccepted, accepted_piece]
            simp only [State.part]
            rw [List.take_add, ← List.prefix_iff_eq_take.mp hpiece]
      | @finish frame' piece offset hpiece =>
          obtain ⟨before, after, rfl, hstarted, haccepted⟩ := ih hcurrent
          refine ⟨before, after ++ [.accept piece], by simp, ?_, ?_⟩
          · rw [started_append, hstarted]
            rfl
          · rw [accepted_append, haccepted, accepted_piece]
            simp [State.part, hpiece]
      | flush => cases hcurrent

end CobsIoAsync.Reasoning.Line
