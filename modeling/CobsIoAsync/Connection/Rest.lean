import CobsIoAsync.Connection.Effort
import CobsIoAsync.Connection.Failure
import CobsIoAsync.Connection.Framing
import CobsIoAsync.Connection.Peers

/-!
# Connection.Rest — a connection that has nothing to do

A call over a link that is never late moves something, or it leaves the connection at rest: no frame
is in progress or could be started, and a packet in flight waits for its deadline.  A connection at
rest stays so until something is moved.
-/

namespace CobsIoAsync.Connection

open Reasoning Protocol

variable {T C W E : Type} {N : Nat}

/-- A number that never falls and stays below the number of steps stands still in some step. -/
theorem exists_still {f : Nat → Nat} {n : Nat} (hmono : ∀ i < n, f i ≤ f (i + 1))
    (hlt : f n < n) : ∃ i < n, f (i + 1) = f i := by
  by_contra hmore
  have hgrows : ∀ i ≤ n, i ≤ f i := by
    intro i
    induction i with
    | zero => exact fun _ => Nat.zero_le _
    | succ i ih =>
        intro hi
        have hstep := hmono i hi
        have hne : f (i + 1) ≠ f i := fun heq => hmore ⟨i, hi, heq⟩
        have := ih (Nat.le_of_succ_le hi)
        omega
  exact absurd (hgrows n le_rfl) (Nat.not_le_of_lt hlt)

/-- A sequence of runs is a run. -/
theorem run_of_le {α : Type} {r : α → α → Prop} {f : Nat → α} {n : Nat}
    (h : ∀ i < n, Relation.ReflTransGen r (f i) (f (i + 1))) {i j : Nat} (hij : i ≤ j)
    (hj : j ≤ n) : Relation.ReflTransGen r (f i) (f j) := by
  induction j, hij using Nat.le_induction with
  | base => exact .refl
  | succ j _ ih => exact (ih (Nat.le_of_succ_le hj)).trans (h j hj)

namespace Reliable

variable {s s' : Reliable T C W E N}

/-- Everything that was moved, and the packets that were accepted. -/
def moved (s : Reliable T C W E N) : Nat := effort s.trace + (queued s.trace).length

theorem moved_mono (h : s.trace <+: s'.trace) : s.moved ≤ s'.moved := by
  obtain ⟨events, htrace⟩ := h
  rw [moved, moved, ← htrace, effort_append, queued_append, List.length_append]
  omega

/-- Where nothing was moved, nothing was done of what counts. -/
theorem eq_of_moved (h : s.trace <+: s'.trace) (hmoved : s'.moved = s.moved) :
    effort s'.trace = effort s.trace ∧ queued s'.trace = queued s.trace := by
  have heffort := effort_mono h
  obtain ⟨events, htrace⟩ := h
  have hlength : (queued s'.trace).length = (queued s.trace).length + (queued events).length := by
    rw [← htrace, queued_append, List.length_append]
  have hnone : queued events = [] := by
    unfold moved at hmoved
    exact List.eq_nil_of_length_eq_zero (by omega)
  refine ⟨?_, by rw [← htrace, queued_append, hnone, List.append_nil]⟩
  unfold moved at hmoved
  omega

/-! ## At rest -/

/-- No frame is in progress or could be started, and a packet in flight waits for its deadline. -/
structure Resting (s : Reliable T C W E N) : Prop where
  out : s.out = .idle
  ack : s.ackPending = none
  tx : s.tx = .idle ∨ s.tx = .waiting ∧ s.finalInput = none

/-- The connection is at rest as before, with the same packet in flight and the same bytes unread. -/
structure Rests (s s' : Reliable T C W E N) : Prop where
  resting : Resting s'
  tx : s'.tx = s.tx
  deadline : s'.txDeadline = s.txDeadline
  unread : s'.unread = s.unread

theorem Resting.same (h : Resting s) (hout : s'.out = s.out) (hack : s'.ackPending = s.ackPending)
    (htx : s'.tx = s.tx) (hfinal : s'.finalInput = s.finalInput ∨ s'.finalInput = none)
    (hdeadline : s'.txDeadline = s.txDeadline) (hunread : s'.unread = s.unread) : Rests s s' := by
  refine ⟨⟨hout.trans h.out, hack.trans h.ack, ?_⟩, htx, hdeadline, hunread⟩
  rw [htx]
  refine h.tx.imp_right fun hwaiting => ⟨hwaiting.1, ?_⟩
  exact hfinal.elim (fun heq => heq.trans hwaiting.2) id

variable [Target]

theorem Resting.act (h : Resting s) (hact : Act s s') (heffort : effort s'.trace = effort s.trace)
    (hframes : frames s'.trace = frames s.trace) : Rests s s' := by
  have htx := h.tx
  cases hact with
  | buffer => exact h.same rfl rfl rfl (.inl rfl) rfl rfl
  | start hstart =>
      cases hstart with
      | going hout => exact absurd h.out hout
      | ack _ _ _ _ hack => simp [h.ack] at hack
      | data _ _ hqueued => simp [hqueued] at htx
  | write hout => simp [h.out] at hout
  | flush hout => simp [h.out] at hout
  | ask => exact h.same rfl rfl rfl (.inl rfl) rfl rfl
  | read =>
      refine ⟨⟨h.out, h.ack, ?_⟩, rfl, rfl, rfl⟩
      simpa using htx
  | @frame body _ _ _ _ hframe =>
      rw [(hframe.sameInput).frames] at hframes
      simp [Event.frame?] at hframes
  | timer htimed =>
      cases htimed with
      | unarmed => exact h.same rfl rfl rfl (.inl rfl) rfl rfl
      | pending => exact h.same rfl rfl rfl (.inl rfl) rfl rfl
      | expired =>
          rw [log_trace, effort_append] at heffort
          simp [effort, expirations, Event.expires] at heffort
      | timeout _ hwaiting hfinal => simp [hwaiting, hfinal] at htx
      | requeue _ hwaiting hfinal => simp [hwaiting, hfinal] at htx
      | listening _ hwaiting hfinal => simp [hwaiting, hfinal] at htx

theorem Resting.beat (h : Resting s) (hfits : Fits N) (hinv : Inv s) (hbeat : Beat Act s s')
    (hmoved : s'.moved = s.moved) (htrace : s.trace <+: s'.trace)
    (hframes : frames s'.trace = frames s.trace) : Rests s s' := by
  obtain ⟨heffort, hqueued⟩ := eq_of_moved htrace hmoved
  cases hbeat with
  | inside _ hact => exact h.act hact heffort hframes
  | note => exact h.same rfl rfl rfl (.inl rfl) rfl rfl
  | fail error =>
      rw [fail_eq]
      exact h.same rfl rfl rfl (.inr rfl) rfl rfl
  | report => exact h.same rfl rfl rfl (.inl rfl) rfl rfl
  | queue =>
      simp [Event.queued?] at hqueued
  | deliver stop hstart hstop =>
      have hnone := (eq_of_effort htrace heffort).2.2
      have hroom := hfits.maxPayload_le
      have hend := hinv.rxEnd_le
      simp only [log_trace, delivered_append, delivered_singleton, Event.deliveredBytes,
        List.append_right_eq_self, List.drop_eq_nil_iff, List.length_take, Bytes.length_toList]
        at hnone
      obtain rfl : stop = s.rxStart := by omega
      exact h.same rfl rfl rfl (.inl rfl) rfl rfl
  | wake hwoken =>
      obtain ⟨waiters, wakes, rfl, -⟩ := hwoken
      exact h.same rfl rfl rfl (.inl rfl) rfl rfl
  | environment => exact h.same rfl rfl rfl (.inl rfl) rfl rfl

omit [Target] in
theorem Rests.trans {s'' : Reliable T C W E N} (h : Rests s s') (h' : Rests s' s'') :
    Rests s s'' :=
  ⟨h'.resting, h'.tx.trans h.tx, h'.deadline.trans h.deadline, h'.unread.trans h.unread⟩

section Runs

theorem Visited.grows (h : Visited Act s) (hbeats : Beats Act s s') : s.trace <+: s'.trace := by
  induction hbeats with
  | refl => exact List.prefix_rfl
  | tail hbefore hbeat ih =>
      have hinv := ((h.beats hbefore).through covers_act).inv
      exact ih.trans (hbeat.moves covers_act hinv).trace

/-- A connection at rest stays at rest until something is moved. -/
theorem Resting.beats (h : Resting s) (hvisited : Visited Act s) (hbeats : Beats Act s s')
    (hmoved : s'.moved = s.moved) (hframes : frames s'.trace = frames s.trace) : Rests s s' := by
  induction hbeats with
  | refl => exact ⟨h, rfl, rfl, rfl⟩
  | @tail t t' hbefore hbeat ih =>
      have hvisited' := hvisited.beats hbefore
      have hthrough := hvisited'.through covers_act
      have hfirst := hvisited.grows hbefore
      have hlast := hvisited'.grows (.of_beat hbeat)
      -- nothing was moved up to the last beat, nor in it
      have hmoved' : t.moved = s.moved := by
        have := moved_mono hfirst
        have := moved_mono hlast
        omega
      have hframes' : frames t.trace = frames s.trace := by
        obtain ⟨events, htrace⟩ := hfirst
        obtain ⟨events', htrace'⟩ := hlast
        rw [← htrace', ← htrace, frames_append, frames_append, List.append_assoc,
          List.append_right_eq_self, List.append_eq_nil_iff] at hframes
        rw [← htrace, frames_append, hframes.1, List.append_nil]
      have hrests := ih hmoved' hframes'
      obtain ⟨-, -, -, hfits, -⟩ := hvisited
      exact hrests.trans (hrests.resting.beat hfits hthrough.inv hbeat (hmoved.trans hmoved'.symm)
        hlast (hframes.trans hframes'.symm))

variable [Waker W] [Transport T W E] [Timer C W]

theorem Reachable.frames_same (h : Reachable s) (h' : Reachable s')
    (hreceived : received s'.trace = received s.trace) : frames s'.trace = frames s.trace := by
  rw [h.framing.frames_eq, h'.framing.frames_eq, hreceived]

theorem Resting.run (h : Resting s) (hs : Reachable s) (hrun : Run s s')
    (hmoved : s'.moved = s.moved) : Rests s s' := by
  have htrace := (hrun.moves hs.sound).trace
  have hreceived := (eq_of_effort htrace (eq_of_moved htrace hmoved).1).2.1
  exact h.beats (hs.visited covers_act) (hrun.beats covers_act hs.sound) hmoved
    (hs.frames_same (hs.run hrun) hreceived)

/-- A connection that has failed stays so. -/
theorem Run.health (h : Sound s) (hrun : Run s s') (hhealth : s'.health = .ok) :
    s.health = .ok := by
  induction hrun with
  | refl => exact hhealth
  | tail hbefore hnext ih =>
      by_contra hfailed
      exact (hnext.stopped (h.run hbefore) fun hok => hfailed (ih hok)).health hhealth

/-- A connection that gave up a packet has failed. -/
theorem Reachable.timeouts_eq (h : Reachable s) (hhealth : s.health = .ok) :
    timeouts s.trace = 0 := by
  have hblame := h.blame
  unfold Blame at hblame
  rw [hhealth] at hblame
  have hcauses : causes s.trace = [] := by
    generalize causes s.trace = list, errors s.trace = returned at hblame
    cases hblame
    rfl
  refine List.countP_eq_zero.mpr fun event hevent => ?_
  have := List.filterMap_eq_nil_iff.mp hcauses event hevent
  cases event <;> simp_all [Event.cause?, Event.timesOut]

/-! ## Calls that move nothing -/

/-- The link was not late in a call that added `events`: it took what it was given, and kept a read
waiting only when everything in `theirs` had been received. -/
structure Prompt (theirs : List UInt8) (before events : List (Event W E)) : Prop where
  write : ∀ cx frame pending, Event.pollWrite cx frame pending .pending ∉ events
  flush : ∀ cx frame, Event.pollFlush cx frame .pending ∉ events
  read : ∀ front cx free bytes back, events = front ++ .pollRead cx free .pending bytes :: back →
    received (before ++ front) = theirs

/-- A call that moves nothing over a link that is not late leaves the connection at rest, with
everything received; a read has found nothing, and a packet in flight is not late. -/
theorem Reachable.rests (h : Reachable s) {call : Call W} {ret : Return E}
    (hcall : s.call call = some (ret, s')) (hdrives : call.drives) (hhealth : s'.health = .ok)
    (hmoved : s'.moved = s.moved) {events : List (Event W E)}
    (htrace : s'.trace = s.trace ++ events) {theirs : List UInt8}
    (hprompt : Prompt theirs s.trace events) :
    Resting s' ∧ received s'.trace = theirs ∧ (∀ cx buf, call = .read cx buf → s'.unread = []) ∧
      (s'.tx = .waiting → ∃ cx, .pollDeadline cx s'.txDeadline .pending ∈ events) := by
  obtain ⟨heffort, hqueued⟩ := eq_of_moved ⟨events, htrace.symm⟩ hmoved
  have hreceived := (eq_of_effort ⟨events, htrace.symm⟩ heffort).2.1
  obtain ⟨s₁, hdispatch, rfl⟩ := h.sound.dispatch hcall
  have heffort₁ : effort s₁.trace = effort s.trace := by
    rw [log_trace, effort_append] at heffort
    exact heffort
  have hqueued₁ : queued s₁.trace = queued s.trace := by simpa [Event.queued?] using hqueued
  obtain ⟨⟨cx, front, last, back, hasked, harmed⟩, hread⟩ :=
    hdispatch.idle h.sound.fits h.sound.inv h.sound.settled hdrives hhealth hqueued₁ heffort₁
  have hevents : events = front ++ last ++ back ++ [.returned call ret] := by
    rw [log_trace, hasked, List.append_assoc, List.append_cancel_left_eq] at htrace
    exact htrace.symm
  have hmem : ∀ event ∈ last, event ∈ events := by
    intro event hevent
    simp [hevents, hevent]
  have hout : s₁.out = .idle := by
    cases hout : s₁.out with
    | idle => rfl
    | writing frame offset =>
        exact absurd (hmem _ (harmed.write frame offset hout)) (hprompt.write _ _ _)
    | flushing frame => exact absurd (hmem _ (harmed.flush frame hout)) (hprompt.flush _ _)
  obtain ⟨hack, hqueued⟩ := harmed.quiet hout
  refine ⟨⟨hout, hack, ?_⟩, ?_, hread, ?_⟩
  · have hinv := (h.sound.next (.call hcall)).inv
    cases htx : s₁.tx with
    | idle => exact .inl htx
    | queued => exact absurd htx hqueued
    | sending => simpa [dataOutBusy, hout] using hinv.busy_of_sending htx
    | waiting => exact .inr ⟨htx, (harmed.deadline htx).2⟩
  · obtain ⟨free, hpending⟩ := harmed.read
    obtain ⟨front', back', hsplit⟩ := List.append_of_mem (hmem _ hpending)
    have htheirs := hprompt.read front' cx free [] back' hsplit
    have hnothing : received events = [] := by
      rwa [htrace, received_append, List.append_right_eq_self] at hreceived
    rw [hsplit, received_append, List.append_eq_nil_iff] at hnothing
    rw [received_append, hnothing.1, List.append_nil] at htheirs
    rw [hreceived, htheirs]
  · intro htx
    exact ⟨cx, hmem _ (harmed.deadline htx).1⟩

end Runs

end Reliable

end CobsIoAsync.Connection
