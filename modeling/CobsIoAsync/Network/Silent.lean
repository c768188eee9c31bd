import CobsIoAsync.Network.Completion

/-!
# Network.Silent — a peer that has gone silent

A connection with a packet in flight that receives nothing more, and that is polled again and again
over a link that takes what it is given and reports no error and no end of the stream, fails with a
timeout.
-/

namespace CobsIoAsync.Connection

open Reasoning Protocol

variable {T C W E : Type} {N : Nat}

namespace Reliable

variable {s s' s₁ : Reliable T C W E N}

/-! ## The end of the sequence numbers -/

/-- The sequence numbers were not found to run out. -/
def Unexhausted (s s' : Reliable T C W E N) : Prop := Adds (fun event => event ≠ .exhausted) s s'

theorem Unexhausted.mem (h : Unexhausted s s') (hmem : .exhausted ∈ s'.trace) :
    .exhausted ∈ s.trace := by
  obtain ⟨events, htrace, hevents⟩ := h
  rw [htrace, List.mem_append] at hmem
  exact hmem.resolve_right fun hnew => hevents _ hnew rfl

theorem Drive.unexhausted [Target] (hinv : Inv s) {cx : W} {budget budget' : Budget} {work : Work}
    (h : Drive s cx budget work budget' s') : Unexhausted s s' := by
  refine (h.adds hinv).mono fun event hinner => ?_
  rintro rfl
  cases hinner

theorem Woken.unexhausted (h : Woken s s') : Unexhausted s s' := by
  obtain ⟨waiters, wakes, rfl, hwakes⟩ := h
  refine ⟨wakes, rfl, fun event hevent => ?_⟩
  obtain ⟨op, waker, rfl⟩ := hwakes event hevent
  simp

theorem Drive.finish_unexhausted [Target] [Waker W] {R : Type} (hinv : Inv s) {cx : W}
    {budget budget' : Budget}
    {work : Work} (h : Drive s cx budget work budget' s₁) (op : Op) (poll : Poll R) :
    Unexhausted s (s₁.finish op cx poll) :=
  (h.unexhausted hinv).trans (finish_woken s₁ op cx poll).unexhausted

theorem Drive.failure_unexhausted [Target] [Waker W] {R : Type} (hinv : Inv s) {cx : W}
    {budget budget' : Budget}
    {work : Work} (h : Drive s cx budget work budget' s₁) {error : ConnectionError E}
    {s₂ : Reliable T C W E N} (hfailure : s₁.failure = (some error, s₂)) (op : Op)
    (poll : Poll R) : Unexhausted s (s₂.finish op cx poll) := by
  obtain ⟨rfl, -⟩ := failure_eq_some hfailure
  exact (h.unexhausted hinv).trans (finish_woken _ op cx poll).unexhausted

/-- The numbers run out when no packet is in flight. -/
theorem Dispatch.exhausted [Target] [Waker W] (hfits : Fits N) (hinv : Inv s) {call : Call W}
    {ret : Return E}
    (h : Dispatch s call ret s') (hmem : .exhausted ∈ s'.trace) :
    .exhausted ∈ s.trace ∨ s'.tx = .idle ∧ s'.health ≠ .ok := by
  cases h with
  | readEmpty => exact .inl hmem
  | @readData cx buf bytes work budget len s₁ hne hdrive =>
      have hdelivered : Unexhausted s ({ s₁ with rxStart := s₁.rxStart + len }.log
          (.delivered bytes)) := (hdrive.unexhausted hinv).trans (.of_snoc rfl (by simp))
      exact .inl (hdelivered.mem ((finish_woken _ .read cx _).unexhausted.mem hmem))
  | readError cx hne hdrive hdata hfailure =>
      exact .inl ((hdrive.failure_unexhausted hinv hfailure _ _).mem hmem)
  | readPending cx hne hdrive => exact .inl ((hdrive.finish_unexhausted hinv _ _).mem hmem)
  | writeEmpty => exact .inl hmem
  | @write cx buf poll s₁ hne hqueue =>
      replace hmem := (finish_woken s₁ .write cx poll).unexhausted.mem hmem
      cases hqueue with
      | @failed work budget s₁ s₂ error hdrive hfailure =>
          obtain ⟨rfl, -⟩ := failure_eq_some hfailure
          obtain ⟨waiters, wakes, hwoken, -⟩ := finish_woken
            { s₁.exhaust with health := .reported } .write cx
            (.ready (.error error) : Poll (Except (ConnectionError E) Nat))
          rw [hwoken]
          unfold exhaust at hmem ⊢
          split at hmem
          · rename_i hready
            have htx : s₁.tx = .idle := by
              simp only [writeReady, Bool.and_eq_true, beq_iff_eq] at hready
              exact hready.1.1
            rw [if_pos hready, fail_eq]
            exact .inr ⟨htx, by simp⟩
          · exact .inl ((hdrive.unexhausted hinv).mem hmem)
      | busy hdrive => exact .inl ((hdrive.unexhausted hinv).mem hmem)
      | @accepted _ _ s₁ s₂ _ _ _ _ _ hdrive _ hready hnext hpayload hlen hframe hs₂ hsecond =>
          obtain ⟨-, hinv₂⟩ := accepted_moves hfits (hinv.moves hfits (hdrive.moves hinv)) hne hready
            hnext hpayload hlen hframe hs₂
          have hfirst : Unexhausted s s₂ :=
            (hdrive.unexhausted hinv).trans (hs₂ ▸ .of_snoc rfl (by simp))
          obtain ⟨-, rfl⟩ | ⟨-, work', budget', hdrive'⟩ := hsecond
          · exact .inl (hfirst.mem hmem)
          · exact .inl (hfirst.mem ((hdrive'.unexhausted hinv₂).mem hmem))
  | flushError cx hdrive hfailure =>
      exact .inl ((hdrive.failure_unexhausted hinv hfailure _ _).mem hmem)
  | flushReady cx hdrive => exact .inl ((hdrive.finish_unexhausted hinv _ _).mem hmem)
  | flushPending cx hdrive => exact .inl ((hdrive.finish_unexhausted hinv _ _).mem hmem)
  | progressError cx hdrive hfailure =>
      exact .inl ((hdrive.failure_unexhausted hinv hfailure _ _).mem hmem)
  | progressPending cx hdrive => exact .inl ((hdrive.finish_unexhausted hinv _ _).mem hmem)
  | cancel operation => exact .inl ((cancelPending_woken s operation).unexhausted.mem hmem)

/-! ## A packet in flight -/

/-- A packet in flight stays in flight until a frame is processed. -/
theorem Beat.busy [Target] (hbeat : Beat Act s s') (hframes : frames s'.trace = frames s.trace)
    (hbusy : s.tx ≠ .idle) : s'.tx ≠ .idle := by
  cases hbeat with
  | inside _ hact =>
      cases hact with
      | start hstart => cases hstart <;> simp_all
      | write _ hwrite => cases hwrite <;> exact hbusy
      | flush _ hflush => cases hflush <;> simp_all
      | frame _ _ _ hframe =>
          rw [hframe.sameInput.frames] at hframes
          simp [Event.frame?] at hframes
      | timer htimed => cases htimed <;> simp_all
      | _ => exact hbusy
  | fail error =>
      rw [fail_eq]
      exact hbusy
  | queue => simp
  | wake hwoken =>
      obtain ⟨waiters, wakes, rfl, -⟩ := hwoken
      exact hbusy
  | _ => exact hbusy

theorem frames_same {t t' t'' : List (Event W E)} (h : t <+: t') (h' : t' <+: t'')
    (hsame : frames t'' = frames t) : frames t' = frames t ∧ frames t'' = frames t' := by
  obtain ⟨events, rfl⟩ := h
  obtain ⟨events', rfl⟩ := h'
  rw [frames_append, frames_append, List.append_assoc, List.append_right_eq_self,
    List.append_eq_nil_iff] at hsame
  simp [frames_append, hsame]

theorem received_same {t t' t'' : List (Event W E)} (h : t <+: t') (h' : t' <+: t'')
    (hsame : received t'' = received t) : received t' = received t := by
  obtain ⟨events, rfl⟩ := h
  obtain ⟨events', rfl⟩ := h'
  rw [received_append, received_append, List.append_assoc, List.append_right_eq_self,
    List.append_eq_nil_iff] at hsame
  rw [received_append, hsame.1, List.append_nil]

section Runs

variable [Target]

theorem Beats.busy (hvisited : Visited Act s) (hbeats : Beats Act s s')
    (hframes : frames s'.trace = frames s.trace) (hbusy : s.tx ≠ .idle) : s'.tx ≠ .idle := by
  induction hbeats with
  | refl => exact hbusy
  | tail hbefore hbeat ih =>
      have hsame := frames_same (hvisited.grows hbefore)
        ((hvisited.beats hbefore).grows (.of_beat hbeat)) hframes
      exact hbeat.busy hsame.2 (ih hsame.1)

variable [Waker W] [Transport T W E] [Timer C W]

/-- A connection that receives nothing keeps its packet in flight. -/
theorem Run.busy (h : Reachable s) (hrun : Run s s')
    (hreceived : received s'.trace = received s.trace) (hbusy : s.tx ≠ .idle) : s'.tx ≠ .idle :=
  (hrun.beats covers_act h.sound).busy (h.visited covers_act)
    (h.frames_same (h.run hrun) hreceived) hbusy

/-- The numbers have run out only on a connection that has failed with no packet in flight. -/
theorem Reachable.exhausted (h : Reachable s) (hmem : .exhausted ∈ s.trace) :
    s.tx = .idle ∧ s.health ≠ .ok := by
  revert hmem
  apply h.keep (P := fun s => .exhausted ∈ s.trace → s.tx = .idle ∧ s.health ≠ .ok)
  · intro transport timer config hmem
    simp [initial] at hmem
  · intro s s' hsound hexhausted hnext hmem
    have hold : .exhausted ∈ s.trace → s'.tx = .idle ∧ s'.health ≠ .ok := by
      intro hmem
      obtain ⟨htx, hhealth⟩ := hexhausted hmem
      have hstopped := hnext.stopped hsound hhealth
      obtain ⟨transport, timer, hs'⟩ := hstopped.rest
      exact ⟨by rw [hs']; exact htx, hstopped.health⟩
    cases hnext with
    | environment => exact hexhausted hmem
    | call hcall =>
        obtain ⟨s₁, hdispatch, rfl⟩ := hsound.dispatch hcall
        have hmem₁ : .exhausted ∈ s₁.trace := by simpa using hmem
        exact (hdispatch.exhausted hsound.fits hsound.inv hmem₁).elim hold id

/-! ## Giving up -/

/-- What a connection may move, in terms of the packets that were accepted and of what was
received. -/
def limit (s : Reliable T C W E N) : Nat :=
  (N + 4) * s.sendable + 22 * dataParsed s.trace + (received s.trace).length +
    (retained s.trace).flatten.length

theorem Reachable.moved_le (h : Reachable s) (hhealth : s.health = .ok) : s.moved ≤ s.limit := by
  have heffort := h.effort_le
  have htimeouts := h.timeouts_eq hhealth
  have hsends : transmitted s.trace ≤ s.sendable := h.transmitted_le
  have hbytes := h.accepted_le
  have hbound := Nat.mul_le_mul_left N hsends
  have hacks := h.acks_le
  have hdelivered : (delivered s.trace).length ≤ (retained s.trace).flatten.length := by
    have hslot := h.history.slot
    unfold SlotHolds at hslot
    rw [← hslot, List.length_append]
    exact Nat.le_add_right _ _
  have hqueued : (queued s.trace).length ≤ s.sendable :=
    Nat.le_mul_of_pos_right _ (Nat.succ_pos _)
  have hack : ackFrameLen = 20 := rfl
  rw [hack] at hbytes
  simp only [moved, limit, Nat.add_mul]
  omega

/-- A call drives the connection, over a link that takes what it is given. -/
inductive Polls (s : Reliable T C W E N) : Reliable T C W E N → Prop
  | mk {call : Call W} {ret : Return E} {s' : Reliable T C W E N} {events : List (Event W E)}
      (hdrives : call.drives) (hcall : s.call call = some (ret, s'))
      (htrace : s'.trace = s.trace ++ events)
      (hwrite : ∀ cx frame pending, .pollWrite cx frame pending .pending ∉ events)
      (hflush : ∀ cx frame, .pollFlush cx frame .pending ∉ events) : Polls s s'

/-- Between `s` and `s'` the connection is polled, whatever else happens, and time passes: where
nothing is moved, no deadline is still to come. -/
structure Round (s s' : Reliable T C W E N) : Prop where
  polled : ∃ s₁ s₂, Run s s₁ ∧ Polls s₁ s₂ ∧ Run s₂ s'
  patient : s'.moved = s.moved → ∀ events cx deadline, s'.trace = s.trace ++ events →
    .pollDeadline cx deadline .pending ∉ events

theorem Polls.next (h : Polls s s') : Next s s' := by
  cases h with
  | mk _ hcall => exact .call hcall

theorem Round.run (h : Round s s') : Run s s' := by
  obtain ⟨s₁, s₂, hbefore, hpolls, hafter⟩ := h.polled
  exact (hbefore.tail hpolls.next).trans hafter

/-- A round in which nothing is moved finds no packet in flight. -/
theorem Round.idle (h : Round s s') (hs : Reachable s) (hhealth : s'.health = .ok)
    (hmoved : s'.moved = s.moved) : ∃ t, Run s t ∧ Run t s' ∧ t.tx = .idle := by
  obtain ⟨s₁, s₂, hbefore, hpolls, hafter⟩ := h.polled
  have h₁ := hs.run hbefore
  have h₂ := h₁.run (.single hpolls.next)
  have hfront := (hbefore.moves hs.sound).trace
  have hcalled := (hpolls.next.moves h₁.sound).trace
  have hback := (hafter.moves h₂.sound).trace
  have hmoved' : s₂.moved = s₁.moved := by
    have := moved_mono hfront
    have := moved_mono hcalled
    have := moved_mono hback
    omega
  have hreceived := (eq_of_effort hcalled (eq_of_moved hcalled hmoved').1).2.1
  refine ⟨s₂, hbefore.tail hpolls.next, hafter, ?_⟩
  cases hpolls with
  | @mk call ret _ events hdrives hcall htrace hwrite hflush =>
      have hprompt : Prompt (received s₁.trace) s₁.trace events := by
        refine ⟨hwrite, hflush, fun front cx free bytes back hsplit => ?_⟩
        have hnothing : received events = [] := by
          rwa [htrace, received_append, List.append_right_eq_self] at hreceived
        rw [hsplit, received_append, List.append_eq_nil_iff] at hnothing
        rw [received_append, hnothing.1, List.append_nil]
      obtain ⟨hresting, -, -, hdeadline⟩ :=
        h₁.rests hcall hdrives (hafter.health h₂.sound hhealth) hmoved' htrace hprompt
      refine hresting.tx.resolve_right fun hwaiting => ?_
      -- the deadline was asked for in this round
      obtain ⟨cx, hpending⟩ := hdeadline hwaiting.1
      obtain ⟨front, hfront⟩ := hfront
      obtain ⟨back, hback⟩ := hback
      refine h.patient hmoved (front ++ events ++ back) cx s₂.txDeadline ?_ (by simp [hpending])
      rw [← hback, htrace, ← hfront]
      simp

/-- A connection with a packet in flight that receives nothing more fails with a timeout, if its
link reports no error, no end of the stream and no write of no bytes. -/
theorem Reachable.gives_up {s : Nat → Reliable T C W E N} {n : Nat} (h : Reachable (s 0))
    (hbusy : (s 0).tx ≠ .idle) (hrounds : ∀ i < n, Round (s i) (s (i + 1)))
    (hsilent : received (s n).trace = received (s 0).trace)
    (hhonest : ∀ event ∈ (s n).trace, event.external → event.cause? = none)
    (hlong : (s n).limit < n) :
    (s n).health = .failed .timeout ∨
      (s n).health = .reported ∧ (errors (s n).trace).head? = some .timeout := by
  have hruns : ∀ i < n, Run (s i) (s (i + 1)) := fun i hi => (hrounds i hi).run
  have hreachable : ∀ i ≤ n, Reachable (s i) := fun i hi =>
    h.run (run_of_le hruns (Nat.zero_le i) hi)
  have hlast := hreachable n le_rfl
  have hfailed : (s n).health ≠ .ok := by
    intro hhealth
    obtain ⟨i, hi, hmoved⟩ := exists_still (f := fun i => (s i).moved)
      (fun i hi => moved_mono ((hruns i hi).moves (hreachable i hi.le).sound).trace)
      ((hlast.moved_le hhealth).trans_lt hlong)
    have hafter : Run (s (i + 1)) (s n) := run_of_le hruns hi le_rfl
    obtain ⟨t, hbefore, hbehind, hidle⟩ := (hrounds i hi).idle (hreachable i hi.le)
      (hafter.health (hreachable (i + 1) hi).sound hhealth) hmoved
    -- nothing was received since the start, so the packet is still in flight
    have hfirst : Run (s 0) t := (run_of_le hruns (Nat.zero_le i) hi.le).trans hbefore
    have hrest : Run t (s n) := hbehind.trans hafter
    refine hfirst.busy h (received_same ?_ ?_ hsilent) hbusy hidle
    · exact (hfirst.moves h.sound).trace
    · exact (hrest.moves (h.run hfirst).sound).trace
  have hcause : ∀ error, (causes (s n).trace).head? = some error → error = .timeout := by
    intro error hhead
    obtain ⟨event, hmem, hevent⟩ := List.mem_filterMap.mp (List.mem_of_mem_head? hhead)
    cases event with
    | timedOut => exact (Option.some.inj hevent).symm
    | exhausted =>
        have hrun : Run (s 0) (s n) := run_of_le hruns (Nat.zero_le n) le_rfl
        exact absurd (hlast.exhausted hmem).1 (hrun.busy h hsilent hbusy)
    | pollRead => rw [hhonest _ hmem rfl] at hevent; cases hevent
    | pollWrite => rw [hhonest _ hmem rfl] at hevent; cases hevent
    | pollFlush => rw [hhonest _ hmem rfl] at hevent; cases hevent
    | _ => cases hevent
  have hblame : Failures (s n).health (causes (s n).trace) (errors (s n).trace) := hlast.blame
  cases hhealth : (s n).health with
  | ok => exact absurd hhealth hfailed
  | failed error =>
      rw [hhealth] at hblame
      exact .inl (congrArg Health.failed (hcause error hblame.of_failed.1))
  | reported =>
      rw [hhealth] at hblame
      obtain ⟨error, hhead, herror⟩ := hblame.of_reported
      exact .inr ⟨rfl, hcause error hhead ▸ herror⟩

end Runs

end Reliable

/-! ## A run over the link of the tests -/

/-- An answer of a link or a timer that is late. -/
def Event.late : Event W E → Bool
  | .pollWrite _ _ _ .pending | .pollFlush _ _ .pending | .pollDeadline _ _ .pending => true
  | _ => false

namespace Reliable

/-- A connection without retransmissions, at a time when every deadline has passed. -/
def urge (s : Reliable Link FakeClock Nat MockError 21) : letI := target64
    Exec (Reliable Link FakeClock Nat MockError 21) :=
  letI := target64
  do
    let (_, s') ← call { s with timer := ⟨100⟩ } (.progress 1)
    if (s'.trace.drop s.trace.length).any Event.late then none else some s'

/-- A packet is written, and then the connection is polled. -/
def urged : Nat → Exec (Reliable Link FakeClock Nat MockError 21)
  | 0 =>
    letI := target64
    do
      let (_, s) ← call (.initial 21 (.holding []) ⟨0⟩ ⟨7, 10, 0⟩) (.write 1 [5])
      some s
  | n + 1 => do urge (← urged n)

theorem urge_round {s s' : Reliable Link FakeClock Nat MockError 21}
    (h : letI := target64; s.Reachable) (hurge : urge s = some s') :
    letI := target64; s'.Reachable ∧ Round s s' := by
  let := target64
  obtain ⟨⟨ret, t⟩, hcall, hrest⟩ := Option.bind_eq_some_iff.mp hurge
  obtain ⟨hprompt, ht⟩ := Option.ite_none_left_eq_some.mp hrest
  obtain rfl := Option.some.inj ht
  have hfirst : Run s { s with timer := ⟨100⟩ } := .single (.environment s s.transport ⟨100⟩)
  have hnext : Next { s with timer := ⟨100⟩ } t := .call hcall
  obtain ⟨events, htrace⟩ := (hnext.moves (h.run hfirst).sound).trace
  have hevents : t.trace = s.trace ++ events := htrace.symm
  rw [hevents, List.drop_left, List.any_eq_true] at hprompt
  have hlate : ∀ event ∈ events, event.late = false := fun event hmem =>
    Bool.eq_false_iff.mpr fun hlate => hprompt ⟨event, hmem, hlate⟩
  refine ⟨(h.run hfirst).run (.single hnext), ⟨_, _, hfirst, .mk rfl hcall hevents ?_ ?_, .refl⟩, ?_⟩
  · exact fun cx frame pending hmem => by cases hlate _ hmem
  · exact fun cx frame hmem => by cases hlate _ hmem
  · intro _ events' cx deadline htrace' hmem
    obtain rfl := List.append_cancel_left (hevents.symm.trans htrace')
    cases hlate _ hmem

theorem urged_rounds {n : Nat} {s : Reliable Link FakeClock Nat MockError 21}
    (h : urged n = some s) : letI := target64; s.Reachable ∧ ∀ i < n,
      ∃ t t', urged i = some t ∧ urged (i + 1) = some t' ∧ Round t t' := by
  let := target64
  induction n generalizing s with
  | zero =>
      rw [urged] at h
      simp only [Option.bind_eq_bind, Option.bind_eq_some_iff, Prod.exists, Option.some.injEq] at h
      obtain ⟨_, t, hcall, rfl⟩ := h
      refine ⟨⟨.holding [], ⟨0⟩, ⟨7, 10, 0⟩, .initial 21 (.holding []) ⟨0⟩ ⟨7, 10, 0⟩, rfl, ?_⟩, ?_⟩
      · exact .single (.call hcall)
      · exact fun i hi => absurd hi (Nat.not_lt_zero i)
  | succ n ih =>
      obtain ⟨t, ht, hurge⟩ := Option.bind_eq_some_iff.mp h
      obtain ⟨hreachable, hrounds⟩ := ih ht
      obtain ⟨hreachable', hround⟩ := urge_round hreachable hurge
      refine ⟨hreachable', fun i hi => ?_⟩
      obtain hlt | rfl := Nat.lt_succ_iff_lt_or_eq.mp hi
      · exact hrounds i hlt
      · exact ⟨t, s, ht, h, hround⟩

/-- A packet that is never acknowledged times out. -/
theorem gives_up_unheard : letI := target64
    ∃ s, urged 26 = some s ∧ (s.health = .failed .timeout ∨
      s.health = .reported ∧ (errors s.trace).head? = some .timeout) := by
  let := target64
  obtain ⟨s, hs⟩ := Option.isSome_iff_exists.mp (show (urged 26).isSome by decide +kernel)
  obtain ⟨s₀, hs₀⟩ := Option.isSome_iff_exists.mp (show (urged 0).isSome by decide +kernel)
  have hstate : (urged 26).map (fun s => (decide (s.limit < 26), received s.trace,
      s.trace.all fun event => !event.external || event.cause?.isNone)) = some (true, [], true) := by
    decide +kernel
  have hstart : (urged 0).map (fun s => (decide (s.tx = .idle), received s.trace)) =
      some (false, []) := by
    decide +kernel
  rw [hs] at hstate
  rw [hs₀] at hstart
  obtain ⟨hlong, hreceived, hhonest⟩ : _ ∧ _ ∧ _ := by
    simpa only [Option.map_some, Option.some.injEq, Prod.mk.injEq] using hstate
  obtain ⟨hbusy, hreceived₀⟩ : _ ∧ _ := by
    simpa only [Option.map_some, Option.some.injEq, Prod.mk.injEq] using hstart
  let run : Nat → Reliable Link FakeClock Nat MockError 21 := fun i => (urged i).getD s₀
  have hrun₀ : run 0 = s₀ := congrArg (Option.getD · s₀) hs₀
  have hrun : run 26 = s := congrArg (Option.getD · s₀) hs
  refine ⟨s, hs, ?_⟩
  have hgives : (run 26).health = .failed .timeout ∨
      (run 26).health = .reported ∧ (errors (run 26).trace).head? = some .timeout := by
    refine Reachable.gives_up ?_ ?_ ?_ ?_ ?_ ?_
    · exact hrun₀ ▸ (urged_rounds hs₀).1
    · exact hrun₀ ▸ of_decide_eq_false hbusy
    · intro i hi
      obtain ⟨t, t', ht, ht', hround⟩ := (urged_rounds hs).2 i hi
      have hnow : run i = t := congrArg (Option.getD · s₀) ht
      have hnext : run (i + 1) = t' := congrArg (Option.getD · s₀) ht'
      exact hnow ▸ hnext ▸ hround
    · rw [hrun, hrun₀, hreceived, hreceived₀]
    · rw [hrun]
      intro event hmem hexternal
      have := List.all_eq_true.mp hhonest event hmem
      simpa [hexternal] using this
    · exact hrun ▸ of_decide_eq_true hlong
  rwa [hrun] at hgives

end Reliable

end CobsIoAsync.Connection
