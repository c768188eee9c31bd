import CobsIoAsync.Connection.Accounts

/-!
# Connection.Pending — what a call that returns `Pending` leaves behind

A call that does not complete has either spent its budget, and then woken its own task, or it has
polled everything the connection waits for in its last step, with the waker of its caller.
-/

namespace CobsIoAsync.Connection

open Reasoning Protocol

variable {T C W E : Type} {N : Nat}

/-- A call of the transport, each of which spends some of the budget. -/
def Event.asks : Event W E → Bool
  | .pollRead .. | .pollWrite .. | .pollFlush .. => true
  | _ => false

/-- What a received frame leads to. -/
def Event.input : Event W E → Bool
  | .frame _ | .decoded _ | .parsed _ | .released _ | .retained .. => true
  | _ => false

/-- What happens inside `step`: nothing of the loop around it or of the public methods. -/
def Event.ofStep : Event W E → Bool
  | .step | .stepped _ | .wakeByRef _ => false
  | event => event.inner

/-- The number of calls of the transport. -/
def asked (trace : List (Event W E)) : Nat := trace.countP Event.asks

@[simp] theorem asked_append (t u : List (Event W E)) : asked (t ++ u) = asked t + asked u :=
  List.countP_append

@[simp] theorem asked_nil : asked ([] : List (Event W E)) = 0 := rfl

@[simp] theorem asked_cons (e : Event W E) (t : List (Event W E)) :
    asked (e :: t) = asked t + if e.asks then 1 else 0 :=
  List.countP_cons

/-- The waker that a poll method is called with. -/
def Call.waker? : Call W → Option W
  | .read cx _ | .write cx _ | .flush cx | .progress cx => some cx
  | .cancel _ => none

/-- The operation that a call polls or cancels. -/
def Call.op : Call W → Op
  | .read .. => .read
  | .write .. => .write
  | .flush _ => .flush
  | .progress _ => .progress
  | .cancel operation => operation.op

def Return.isPending : Return E → Bool
  | .read .pending _ | .write .pending | .flush .pending | .progress .pending => true
  | _ => false

theorem Work.max_eq_blocked {a b : Work} : a.max b = .blocked ↔ a = .blocked ∧ b = .blocked := by
  cases a <;> cases b <;> simp [Work.max]

theorem Work.max_eq_yield {a b : Work} : a.max b = .yield ↔ a = .yield ∨ b = .yield := by
  cases a <;> cases b <;> simp [Work.max]

namespace Reliable

variable {s s' s'' : Reliable T C W E N}
variable [Target]

/-! ## The budget -/

theorem Take.adds {packet : Packet} (h : Take s packet s') :
    Adds (fun event => event.input) s s' := by
  cases h with
  | release => exact .of_snoc rfl rfl
  | retain => exact .of_snoc rfl rfl
  | _ => exact .of_eq rfl

theorem ProcessFrame.adds {body : List UInt8} (h : ProcessFrame s body s') :
    Adds (fun event => event.input) s s' := by
  have hbody : ∀ scratch : Bytes N, Adds (fun event => event.input) s
      { s.log (.frame body) with scratch } := fun scratch =>
    .of_snoc (show _ = s.trace ++ [.frame body] from rfl) rfl
  cases h with
  | undecodable => exact hbody _
  | unparsable => exact (hbody _).trans (.of_snoc rfl rfl)
  | parsed _ _ h => exact (((hbody _).trans (.of_snoc rfl rfl)).trans (.of_snoc rfl rfl)).trans h.adds

/-- Processing the receive buffer asks nothing and reports nothing. -/
theorem ProcessInput.adds (h : ProcessInput s s') : Adds (fun event => event.input) s s' := by
  induction h with
  | rest => exact .of_eq rfl
  | overflow => exact .of_eq rfl
  | @segment s s₁ s' _ _ _ _ _ _ hsegment _ ih =>
      have hbefore : Adds (fun event => event.input) s s₁ := by
        cases hsegment with
        | frame _ _ h => exact h.adds
        | _ => exact .of_eq rfl
      exact hbefore.trans (.trans (.of_eq rfl) ih)

theorem ProcessInput.asked (h : ProcessInput s s') : asked s'.trace = asked s.trace := by
  obtain ⟨events, htrace, hinput⟩ := h.adds
  have hnone : Connection.asked events = 0 := List.countP_eq_zero.mpr fun event hevent => by
    have := hinput event hevent
    cases event <;> simp_all [Event.input, Event.asks]
  rw [htrace, asked_append, hnone, Nat.add_zero]

omit [Target] in
/-- Every call of the transport spends one unit of the budget. -/
theorem Output.spent {cx : W} {budget budget' : Budget} {work : Outcome E}
    (h : Output s cx budget work budget' s') :
    asked s'.trace + budget'.left = asked s.trace + budget.left := by
  have hstart : ∀ {s₁ : Reliable T C W E N}, Start s s₁ → asked s₁.trace = asked s.trace := by
    intro s₁ h
    cases h <;> simp [Event.asks]
  cases h with
  | nothing => rfl
  | starved h => rw [hstart h]
  | write h hleft _ hwrite =>
      rw [← hstart h, hleft]
      cases hwrite <;> simp [Event.asks] <;> omega
  | flush h hleft _ hflush =>
      rw [← hstart h, hleft]
      cases hflush <;> simp [Event.asks] <;> omega

theorem Input.spent {cx : W} {budget budget' : Budget} {work : Outcome E}
    (h : Input s cx budget work budget' s') :
    asked s'.trace + budget'.left = asked s.trace + budget.left := by
  cases h with
  | starved => rfl
  | read _ _ _ _ hleft _ _ _ hprocess =>
      rw [hprocess.asked, hleft]
      simp [Event.asks]
      omega
  | pending _ _ hleft =>
      rw [hleft]
      simp [Event.asks]
      omega
  | error _ _ _ hleft =>
      rw [hleft]
      simp [Event.asks]
      omega
  | eof _ _ hleft =>
      rw [hleft]
      simp [Event.asks]
      omega

theorem Step.spent {cx : W} {budget budget' : Budget} {work : Outcome E}
    (h : Step s cx budget work budget' s') :
    asked s'.trace + budget'.left = asked s.trace + budget.left := by
  have htimed : ∀ {s₁ s₂ : Reliable T C W E N} {input : Work} {work : Outcome E},
      Timed s₁ cx input work s₂ → asked s₂.trace = asked s₁.trace := by
    intro s₁ s₂ input work h
    cases h <;> simp [Event.asks]
  cases h with
  | output houtput => exact houtput.spent
  | input houtput hinput => rw [hinput.spent, houtput.spent]
  | timer houtput hinput htimer => rw [htimed htimer, hinput.spent, houtput.spent]
  | done houtput hinput htimer => rw [htimed htimer, hinput.spent, houtput.spent]

omit [Target] in
theorem Output.exhausted {cx : W} {budget budget' : Budget}
    (h : Output s cx budget (.ok .yield) budget' s') : budget'.left = 0 := by
  cases h with
  | starved _ hleft => exact hleft
  | write _ _ _ hwrite => cases hwrite
  | flush _ _ _ hflush => cases hflush

theorem Input.exhausted {cx : W} {budget budget' : Budget} {work : Outcome E}
    (h : Input s cx budget work budget' s') (hleft : budget.left = 0 ∨ work = .ok .yield) :
    budget'.left = 0 := by
  cases h with
  | starved hzero => exact hzero
  | pending _ _ hsome => simp [hsome] at hleft
  | error _ _ _ hsome => simp [hsome] at hleft
  | eof _ _ hsome => simp [hsome] at hleft
  | read _ _ _ _ hsome => simp [hsome] at hleft

/-- A step yields when the budget is spent. -/
theorem Step.exhausted {cx : W} {budget budget' : Budget}
    (h : Step s cx budget (.ok .yield) budget' s') : budget'.left = 0 := by
  generalize hwork : Except.ok Work.yield = work at h
  cases h with
  | output => cases hwork
  | input => cases hwork
  | timer => cases hwork
  | done houtput hinput htimer =>
      have hyield := Work.max_eq_yield.mp (Except.ok.inj hwork).symm
      rw [Work.max_eq_yield] at hyield
      rcases hyield with (rfl | rfl) | rfl
      · exact hinput.exhausted (.inl houtput.exhausted)
      · exact hinput.exhausted (.inr rfl)
      · cases htimer

/-! ## The last step -/

/-- Everything the connection waits for was polled with `cx` and will wake it. -/
structure Armed (cx : W) (last : List (Event W E)) (s : Reliable T C W E N) : Prop where
  read : ∃ free, .pollRead cx free .pending [] ∈ last
  write : ∀ frame offset, s.out = .writing frame offset →
    .pollWrite cx frame ((s.frameBytes frame).drop offset) .pending ∈ last
  flush : ∀ frame, s.out = .flushing frame → .pollFlush cx frame .pending ∈ last
  deadline : s.tx = .waiting →
    .pollDeadline cx s.txDeadline .pending ∈ last ∧ s.finalInput = none
  quiet : s.out = .idle → s.ackPending = none ∧ s.tx ≠ .queued

omit [Target] in
theorem Armed.same {cx : W} {last : List (Event W E)} (h : Armed cx last s) (waiters : Waiters W)
    (trace : List (Event W E)) : Armed cx last { s with waiters, trace } :=
  ⟨h.1, h.2, h.3, h.4, h.5⟩

omit [Target] in
/-- What a blocked output leaves behind. -/
theorem Output.armed {cx : W} {budget budget' : Budget}
    (h : Output s cx budget (.ok .blocked) budget' s') :
    ∃ last, s'.trace = s.trace ++ last ∧ (∀ event ∈ last, event.ofStep) ∧
      (∀ frame offset, s'.out = .writing frame offset →
        .pollWrite cx frame ((s'.frameBytes frame).drop offset) .pending ∈ last) ∧
      (∀ frame, s'.out = .flushing frame → .pollFlush cx frame .pending ∈ last) ∧
      (s'.out = .idle → s'.ackPending = none ∧ s'.tx ≠ .queued) := by
  -- Starting a frame is the one thing a step records before it polls.
  have hstart : ∀ {s₁ : Reliable T C W E N}, Start s s₁ →
      ∃ started, s₁.trace = s.trace ++ started ∧ ∀ event ∈ started, event.ofStep := by
    intro s₁ h
    cases h with
    | going => exact ⟨[], by simp, by simp⟩
    | ack => exact ⟨[_], rfl, List.forall_mem_singleton.mpr rfl⟩
    | data => exact ⟨[_], rfl, List.forall_mem_singleton.mpr rfl⟩
  cases h with
  | nothing hout hack htx =>
      exact ⟨[], by simp, by simp, by simp [hout], by simp [hout], fun _ => ⟨hack, htx⟩⟩
  | @write s₁ _ frame offset left _ h _ hout hwrite =>
      obtain ⟨started, htrace, hinside⟩ := hstart h
      cases hwrite with
      | pending transport =>
          refine ⟨started ++ [.pollWrite cx frame ((s₁.frameBytes frame).drop offset) .pending],
            by simp [htrace],
            List.forall_mem_append.mpr ⟨hinside, List.forall_mem_singleton.mpr rfl⟩,
            ?_, by simp [hout], by simp [hout]⟩
          intro frame' offset' hout'
          obtain ⟨rfl, rfl⟩ := Out.writing.inj (hout.symm.trans hout')
          exact List.mem_append_right _ (List.mem_singleton_self _)
  | @flush s₁ _ frame left _ h _ hout hflush =>
      obtain ⟨started, htrace, hinside⟩ := hstart h
      cases hflush with
      | pending transport =>
          refine ⟨started ++ [.pollFlush cx frame .pending], by simp [htrace],
            List.forall_mem_append.mpr ⟨hinside, List.forall_mem_singleton.mpr rfl⟩,
            by simp [hout], ?_, by simp [hout]⟩
          intro frame' hout'
          obtain rfl := Out.flushing.inj (hout.symm.trans hout')
          exact List.mem_append_right _ (List.mem_singleton_self _)

/-- A blocked step is made of three parts that are blocked. -/
theorem Step.of_blocked {cx : W} {budget budget' : Budget}
    (h : Step s cx budget (.ok .blocked) budget' s') :
    ∃ budget₁ s₁ s₂, Output s cx budget (.ok .blocked) budget₁ s₁ ∧
      Input s₁ cx budget₁ (.ok .blocked) budget' s₂ ∧ Timed s₂ cx .blocked (.ok .blocked) s' := by
  generalize hwork : Except.ok Work.blocked = work at h
  cases h with
  | output => cases hwork
  | input => cases hwork
  | timer => cases hwork
  | done houtput hinput htimer =>
      obtain ⟨hboth, rfl⟩ := Work.max_eq_blocked.mp (Except.ok.inj hwork).symm
      obtain ⟨rfl, rfl⟩ := Work.max_eq_blocked.mp hboth
      exact ⟨_, _, _, houtput, hinput, htimer⟩

/-- A blocked step polls everything and leaves nothing that could be started. -/
theorem Step.armed {cx : W} {budget budget' : Budget}
    (h : Step s cx budget (.ok .blocked) budget' s') :
    ∃ last, s'.trace = s.trace ++ last ∧ (∀ event ∈ last, event.ofStep) ∧ Armed cx last s' := by
  obtain ⟨budget₁, s₁, s₂, houtput, hinput, htimer⟩ := h.of_blocked
  obtain ⟨last, htrace, hinside, hwrite, hflush, hquiet⟩ := houtput.armed
  cases hinput with
  | pending transport rxBuf hleft hbuf =>
      -- a blocked read changes nothing the output or the timer looks at
      cases htimer with
      | unarmed htx =>
          refine ⟨last ++ [.pollRead cx (N - s₁.rxLen) .pending []], by simp [htrace],
            List.forall_mem_append.mpr ⟨hinside, List.forall_mem_singleton.mpr rfl⟩,
            ⟨⟨_, List.mem_append_right _ (List.mem_singleton_self _)⟩, ?_, ?_,
              fun hwaiting => absurd hwaiting htx, hquiet⟩⟩
          · exact fun frame offset hout => List.mem_append_left _ (hwrite frame offset hout)
          · exact fun frame hout => List.mem_append_left _ (hflush frame hout)
      | pending timer htx hfinal =>
          refine ⟨last ++ [.pollRead cx (N - s₁.rxLen) .pending [],
            .pollDeadline cx s₁.txDeadline .pending], by simp [htrace],
            List.forall_mem_append.mpr ⟨hinside, by simp [Event.ofStep, Event.inner]⟩,
            ⟨⟨N - s₁.rxLen, by simp⟩, ?_, ?_, fun _ => ⟨by simp, hfinal⟩, hquiet⟩⟩
          · exact fun frame offset hout => List.mem_append_left _ (hwrite frame offset hout)
          · exact fun frame hout => List.mem_append_left _ (hflush frame hout)
      | listening left htx hfinal hinput => exact absurd rfl hinput

/-- How the loop of `drive` ends when the connection has not failed. -/
theorem DriveLoop.ending (hinv : Inv s) {cx : W} {budget budget' : Budget} {work : Work}
    (h : DriveLoop cx s budget work budget' s') (hhealth : s'.health = .ok) :
    ∃ events, s'.trace = s.trace ++ events ∧
      ((∃ before last, events = before ++ Event.step :: (last ++ [Event.stepped (.ok .blocked)]) ∧
          Event.step ∉ last ∧ Armed cx last s') ∨
        asked events = budget.left ∧ Event.wakeByRef cx ∈ events) := by
  -- what a step adds to the trace
  have hadds : ∀ {s s₁ : Reliable T C W E N} {budget budget₁ : Budget} {work : Outcome E}, Inv s →
      Step (s.log .step) cx budget work budget₁ s₁ → Inv s₁ ∧
        ∃ events, s₁.trace = s.trace ++ .step :: events ∧
          asked events + budget₁.left = budget.left := by
    intro s s₁ budget budget₁ work hinv hstep
    have hstart : Inv (s.log .step) := hinv.turn (.note s _ rfl)
    have hturns := hstep.turns hstart
    obtain ⟨events, htrace, -⟩ := hturns.inner.adds
    have hspent := hstep.spent
    simp only [log_trace, List.append_assoc, List.singleton_append] at htrace
    simp only [htrace, log_trace, asked_append, asked_cons, asked_nil, Event.asks] at hspent
    exact ⟨hstart.turns hturns, events, htrace, by omega⟩
  induction h with
  | @progress s s₁ s₂ budget budget₁ budget₂ work hstep hloop ih =>
      obtain ⟨hinv₁, first, htrace₁, hspent⟩ := hadds hinv hstep
      obtain ⟨events, htrace, hending⟩ := ih (hinv₁.turn (.note s₁ _ rfl)) hhealth
      refine ⟨.step :: (first ++ .stepped (.ok .progress) :: events), by simp [htrace, htrace₁], ?_⟩
      rcases hending with ⟨before, last, rfl, hnone, harmed⟩ | ⟨hasked, hwake⟩
      · exact .inl ⟨.step :: (first ++ .stepped (.ok .progress) :: before), last, by simp, hnone,
          harmed⟩
      · refine .inr ⟨?_, by simp [hwake]⟩
        simp only [asked_append, asked_cons, Event.asks, Bool.false_eq_true, if_false]
        omega
  | blocked hstep =>
      obtain ⟨last, htrace, hinside, harmed⟩ := hstep.armed
      have hnone : .step ∉ last := fun hmem => absurd (hinside _ hmem) (by simp [Event.ofStep])
      exact ⟨.step :: (last ++ [.stepped (.ok .blocked)]), by simp [htrace],
        .inl ⟨[], last, rfl, hnone, harmed.same _ _⟩⟩
  | yield hstep =>
      obtain ⟨-, events, htrace, hspent⟩ := hadds hinv hstep
      refine ⟨.step :: (events ++ [.stepped (.ok .yield), .wakeByRef cx]), by simp [htrace],
        .inr ⟨?_, by simp⟩⟩
      rw [hstep.exhausted] at hspent
      simp only [asked_append, asked_cons, asked_nil, Event.asks, Bool.false_eq_true, if_false]
      omega
  | error hstep => exact absurd hhealth (health_fail _ _)

variable [Waker W]

/-- A call that returns `Pending` has driven the connection, found its condition not met and
registered its waker. -/
theorem Dispatch.pending {call : Call W} {ret : Return E} (h : Dispatch s call ret s')
    (hpending : ret.isPending = true) :
    ∃ cx work budget s₁, call.waker? = some cx ∧ Drive s cx .new work budget s₁ ∧
      s₁.health = .ok ∧ s₁.due false call.op = false ∧
        s' = s₁.finish call.op cx (.pending : Poll Unit) := by
  cases h with
  | readPending cx hne hdrive hdata hhealth =>
      exact ⟨cx, _, _, _, rfl, hdrive, hhealth, by simpa [due, Call.op] using hdata, rfl⟩
  | write cx hne hqueue =>
      cases hqueue with
      | failed => cases hpending
      | busy hdrive hhealth hbusy => exact ⟨cx, _, _, _, rfl, hdrive, hhealth, hbusy, rfl⟩
      | accepted => cases hpending
  | flushPending cx hdrive hhealth hready => exact ⟨cx, _, _, _, rfl, hdrive, hhealth, hready, rfl⟩
  | progressPending cx hdrive hhealth => exact ⟨cx, _, _, _, rfl, hdrive, hhealth, rfl, rfl⟩
  | _ => cases hpending

section Runs

variable [Transport T W E] [Timer C W]

/-- A call that returns `Pending` has spent its budget and woken its task, or has polled
everything that it waits for in its last step. -/
theorem Reachable.pending_armed (h : Reachable s) {call : Call W} {ret : Return E}
    (hcall : s.call call = some (ret, s')) (hpending : ret.isPending = true) :
    ∃ cx events, call.waker? = some cx ∧ s'.trace = s.trace ++ events ∧
      (asked events = stepBudget ∧ .wakeByRef cx ∈ events ∨
        ∃ before last after,
          events = before ++ .step :: (last ++ .stepped (.ok .blocked) :: after) ∧
            .step ∉ last ∧ .step ∉ after ∧ Armed cx last s') := by
  obtain ⟨s₂, hdispatch, rfl⟩ := h.sound.dispatch hcall
  obtain ⟨cx, work, budget, s₁, hwaker, hdrive, hhealth, -, rfl⟩ := hdispatch.pending hpending
  obtain ⟨waiters, wakes, heq, hwakes⟩ := finish_woken s₁ call.op cx (.pending : Poll Unit)
  rw [heq]
  have hloop : ∃ events, s₁.trace = s.trace ++ events ∧
      ((∃ before last, events = before ++ .step :: (last ++ [.stepped (.ok .blocked)]) ∧
          .step ∉ last ∧ Armed cx last s₁) ∨
        asked events = stepBudget ∧ .wakeByRef cx ∈ events) := by
    cases hdrive with
    | stopped hstopped => exact absurd hhealth hstopped
    | loop _ hloop => exact hloop.ending h.sound.inv hhealth
  obtain ⟨events, htrace, hending⟩ := hloop
  -- The waiters woken after the drive ask the transport nothing and take no step.
  have hasked : asked wakes = 0 := List.countP_eq_zero.mpr fun event hevent => by
    obtain ⟨op, waker, rfl⟩ := hwakes event hevent
    simp [Event.asks]
  have hstep : .step ∉ wakes := fun hmem => by
    obtain ⟨op, waker, hwake⟩ := hwakes _ hmem
    cases hwake
  refine ⟨cx, events ++ (wakes ++ [Event.returned call ret]), hwaker, by simp [htrace], ?_⟩
  rcases hending with ⟨before, last, rfl, hnone, harmed⟩ | ⟨hspent, hwake⟩
  · exact .inr ⟨before, last, wakes ++ [Event.returned call ret], by simp, hnone, by simp [hstep],
      harmed.same _ _⟩
  · refine .inl ⟨?_, by simp [hwake]⟩
    simp [hspent, hasked, Event.asks]

omit [Target] in
/-- A flush waits for an acknowledgement: its task is woken by the link or at the deadline. -/
theorem pending_armed_flush : letI := target64
    ∃ s s', (testConnection []).calls [.write 1 [5]] = some s ∧
      s.call (.flush 2) = some (.flush .pending, s') ∧ s'.tx = .waiting ∧
      ∃ cx events, some 2 = some cx ∧ s'.trace = s.trace ++ events ∧
        (asked events = stepBudget ∧ .wakeByRef cx ∈ events ∨
          ∃ before last after,
            events = before ++ .step :: (last ++ .stepped (.ok .blocked) :: after) ∧
              .step ∉ last ∧ .step ∉ after ∧ Armed cx last s') := by
  let := target64
  obtain ⟨s, hs⟩ := Option.isSome_iff_exists.mp
    (show ((testConnection []).calls [.write 1 [5]]).isSome by decide +kernel)
  have hcall : (((testConnection []).calls [.write 1 [5]]).bind (·.call (.flush 2))).map
      (fun r => (match r.1 with | .flush .pending => true | _ => false, r.2.tx)) =
        some (true, .waiting) := by decide +kernel
  rw [hs, Option.bind_some, Option.map_eq_some_iff] at hcall
  obtain ⟨⟨ret, s'⟩, hs', hret⟩ := hcall
  obtain ⟨hflush, htx⟩ := Prod.mk.inj hret
  obtain rfl : ret = .flush .pending := by
    split at hflush
    · assumption
    · cases hflush
  exact ⟨s, s', hs, hs', htx, (reachable_testConnection hs).pending_armed hs' rfl⟩

end Runs

end Reliable

end CobsIoAsync.Connection
