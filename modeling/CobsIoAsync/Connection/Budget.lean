import CobsIoAsync.Connection.Acts
import CobsIoAsync.Connection.Link

/-!
# Connection.Budget — what a call costs

A call runs the loop of `drive` on a budget, twice in the case of `queue_packet`.  Every iteration
spends some of it on every path, so that a call asks the transport a bounded number of times, and it
wakes its own task exactly if the budget ran out.
-/

namespace CobsIoAsync.Connection

open Reasoning Protocol

variable {T C W E : Type} {N : Nat}

/-! ## Costs -/

def Event.isStep : Event W E → Bool
  | .step => true
  | _ => false

/-- The number of iterations of the loop of `drive`. -/
def iterations (trace : List (Event W E)) : Nat := trace.countP Event.isStep

def Event.wokenByRef? : Event W E → Option W
  | .wakeByRef cx => some cx
  | _ => none

/-- The wakers that `drive` woke. -/
def wokenByRef (trace : List (Event W E)) : List W := trace.filterMap Event.wokenByRef?

@[simp] theorem iterations_append (t u : List (Event W E)) :
    iterations (t ++ u) = iterations t + iterations u := List.countP_append

@[simp] theorem wokenByRef_append (t u : List (Event W E)) :
    wokenByRef (t ++ u) = wokenByRef t ++ wokenByRef u := List.filterMap_append

/-- Events that cost nothing. -/
def Event.free : Event W E → Bool
  | .step | .wakeByRef _ => false
  | event => !event.asks

/-- What happens between two states of the budget, where `spends` are the results of
`Budget::spend`. -/
structure Costs (cx : W) (spends : List Bool) (budget budget' : Budget)
    (events : List (Event W E)) : Prop where
  asked : asked events + budget'.left = budget.left
  iterations : iterations events + budget'.left ≤ budget.left + if false ∈ spends then 1 else 0
  woken : wokenByRef events = if false ∈ spends then [cx] else []

theorem Event.counts_of_free {event : Event W E} (h : event.free = true) :
    event.asks = false ∧ event.isStep = false ∧ event.wokenByRef? = none := by
  cases event <;> first | exact ⟨rfl, rfl, rfl⟩ | cases h

theorem counts_of_free {events : List (Event W E)} (h : ∀ event ∈ events, event.free) :
    asked events = 0 ∧ iterations events = 0 ∧ wokenByRef events = [] := by
  have hcounts := fun event hevent => Event.counts_of_free (h event hevent)
  refine ⟨List.countP_eq_zero.mpr fun event hevent => ?_,
    List.countP_eq_zero.mpr fun event hevent => ?_,
    List.filterMap_eq_nil_iff.mpr fun event hevent => (hcounts event hevent).2.2⟩
  · simp [(hcounts event hevent).1]
  · simp [(hcounts event hevent).2.1]

theorem costs_of_free {cx : W} {budget : Budget} {events : List (Event W E)}
    (h : ∀ event ∈ events, event.free) : Costs cx [] budget budget events := by
  obtain ⟨hasked, hsteps, hwoken⟩ := counts_of_free h
  exact ⟨by omega, by simp [hsteps], by simpa using hwoken⟩

/-- The costs of two parts add up, when the budget did not run out in the first one. -/
theorem Costs.append {cx : W} {spends spends' : List Bool} {budget budget₁ budget' : Budget}
    {events events' : List (Event W E)} (h : Costs cx spends budget budget₁ events)
    (h' : Costs cx spends' budget₁ budget' events') (hspends : false ∉ spends) :
    Costs cx (spends ++ spends') budget budget' (events ++ events') := by
  have hasked := h.asked
  have hasked' := h'.asked
  have hsteps := h.iterations
  have hsteps' := h'.iterations
  have hwoken := h.woken
  rw [if_neg hspends] at hsteps hwoken
  have hmem : false ∈ spends ++ spends' ↔ false ∈ spends' := by simp [hspends]
  refine ⟨?_, ?_, ?_⟩
  · rw [asked_append]
    omega
  · simp only [iterations_append, hmem]
    omega
  · simp only [wokenByRef_append, hmem]
    rw [hwoken, h'.woken, List.nil_append]

/-- What comes for free changes nothing. -/
theorem Costs.then {cx : W} {spends : List Bool} {budget budget' : Budget}
    {events events' : List (Event W E)} (h : Costs cx spends budget budget' events)
    (hfree : ∀ event ∈ events', event.free) : Costs cx spends budget budget' (events ++ events') := by
  obtain ⟨hasked, hsteps, hwoken⟩ := counts_of_free hfree
  refine ⟨?_, ?_, ?_⟩
  · rw [asked_append, hasked, Nat.add_zero, h.asked]
  · rw [iterations_append, hsteps]
    exact h.iterations
  · rw [wokenByRef_append, hwoken, List.append_nil, h.woken]

namespace Reliable

variable {s s' : Reliable T C W E N}

/-! ## The budget of a step -/

section Runs

/-- The results of `Budget::spend` in `poll_output`. -/
def outputSpends (s : Reliable T C W E N) (budget : Budget) : List Bool :=
  match s.startOutput with
  | some (some _) => [budget.spend.1]
  | _ => []

section

variable [Target] [Waker W] [Transport T W E] [Timer C W]

/-- The results of `Budget::spend` in `step`. -/
def stepSpends (s : Reliable T C W E N) (cx : W) (budget : Budget) : List Bool :=
  s.outputSpends budget ++
    match s.pollOutput cx budget with
    | some (.ok _, budget, _) => [budget.spend.1]
    | _ => []

/-- The results of `Budget::spend` in the loop of `drive`. -/
def driveLoopSpends (cx : W) : Nat → Reliable T C W E N → Budget → List Bool
  | 0, _, _ => []
  | fuel + 1, s, budget =>
    (s.log .step).stepSpends cx budget ++
      match (s.log .step).step cx budget with
      | some (.ok .progress, budget, s) =>
        driveLoopSpends cx fuel (s.log (.stepped (.ok .progress))) budget
      | _ => []

/-- The results of `Budget::spend` in `drive`. -/
def driveSpends (s : Reliable T C W E N) (cx : W) (budget : Budget) : List Bool :=
  match s.health with
  | .ok => driveLoopSpends cx (budget.left + 1) s budget
  | _ => []

/-- The state in which `queue_packet` has encoded a packet. -/
def encoded (s : Reliable T C W E N) (buf : List UInt8) : Exec (Reliable T C W E N) :=
  let payload := buf.take (maxPayload N)
  let seq := UInt32.ofNat s.txNext
  (encodeData s.config.session seq payload s.scratch s.txFrame).map fun (txLen, scratch, txFrame) =>
    { s with txLen, scratch, txFrame, txNext := s.txNext + 1, txRetries := 0, tx := .queued }.log
      (.queued seq payload)

/-- The results of `Budget::spend` in `queue_packet`, which drives the connection again when it has
accepted a packet and the first drive did not yield. -/
def queueSpends (s : Reliable T C W E N) (cx : W) (buf : List UInt8) : List Bool :=
  s.driveSpends cx .new ++
    match s.drive cx .new with
    | some (work, budget, s) =>
      if work ≠ .yield ∧ s.health matches .ok ∧ s.writeReady ∧ s.txNext ≤ u32Max then
        match s.encoded buf with
        | some s => s.driveSpends cx budget
        | none => []
      else []
    | none => []

/-- The results of `Budget::spend` in a call of a public method. -/
def callSpends (s : Reliable T C W E N) : Call W → List Bool
  | .read cx buf => if buf = [] then [] else s.driveSpends cx .new
  | .write cx buf => if buf = [] then [] else s.queueSpends cx buf
  | .flush cx => s.driveSpends cx .new
  | .progress cx => s.driveSpends cx .new
  | .cancel _ => []

end

theorem spend_eq_false {budget : Budget} : budget.spend.1 = false ↔ budget.left = 0 := by
  obtain ⟨hleft, hspend⟩ | ⟨left, hleft, hspend⟩ := spend_eq budget
  · simp [hspend, hleft]
  · simp [hspend, hleft]

/-- `poll_output` yields if the budget has run out, and only then. -/
theorem pollOutput_spends [Target] [Transport T W E] [Timer C W] (hN : Fits N) (h : Inv s) (cx : W)
    (budget : Budget) :
    Returns (s.pollOutput cx budget) fun r => Output s cx budget r.1 r.2.1 r.2.2 ∧
      (false ∈ s.outputSpends budget ↔ r.1 = .ok .yield) := by
  obtain ⟨⟨work, budget', s'⟩, hrun, houtput⟩ := pollOutput_returns hN h cx budget
  refine ⟨_, hrun, houtput, ?_⟩
  obtain ⟨started, hstart, -⟩ := startOutput_returns s
  rw [pollOutput, hstart] at hrun
  rw [outputSpends, hstart]
  cases started with
  | none =>
      cases hrun
      simp
  | some s₁ =>
      obtain ⟨hleft, hspend⟩ | ⟨left, hleft, hspend⟩ := spend_eq budget
      · simp only [bind, Option.bind_some, hspend] at hrun
        cases hrun
        simp [hspend]
      · -- with some budget left nothing yields
        have hne : work ≠ .ok .yield := by
          rintro rfl
          cases houtput with
          | starved _ hzero => omega
          | write _ _ _ hwrite => cases hwrite
          | flush _ _ _ hflush => cases hflush
        simp [hspend, hne]

/-- `poll_input` yields if the budget has run out, and only then. -/
theorem Input.yield_iff [Target] {cx : W} {budget budget' : Budget} {work : Outcome E}
    (h : Input s cx budget work budget' s') : budget.spend.1 = false ↔ work = .ok .yield := by
  rw [spend_eq_false]
  cases h with
  | starved hleft => simp [hleft]
  | pending _ _ hleft => simp [hleft]
  | error _ _ _ hleft => simp [hleft]
  | eof _ _ hleft => simp [hleft]
  | read _ _ _ _ hleft => simp [hleft]

/-- No allowance for the final input is used up between two steps. -/
def Allowed (s : Reliable T C W E N) : Prop := s.finalInput ≠ some 0

theorem Output.finalInput {cx : W} {budget budget' : Budget} {work : Outcome E}
    (h : Output s cx budget work budget' s') :
    s'.finalInput = s.finalInput ∨ s'.finalInput = none := by
  have hstart : ∀ {s₁ : Reliable T C W E N}, Start s s₁ → s₁.finalInput = s.finalInput := by
    intro s₁ h
    cases h <;> rfl
  cases h with
  | nothing => exact .inl rfl
  | starved h => exact .inl (hstart h)
  | write h _ _ hwrite =>
      rw [← hstart h]
      cases hwrite <;> exact .inl rfl
  | flush h _ _ hflush =>
      rw [← hstart h]
      cases hflush with
      | sent => exact .inr rfl
      | _ => exact .inl rfl

theorem Allowed.output (h : Allowed s) {cx : W} {budget budget' : Budget} {work : Outcome E}
    (houtput : Output s cx budget work budget' s') : Allowed s' := by
  rcases houtput.finalInput with hsame | hnone
  · rwa [Allowed, hsame]
  · simp [Allowed, hnone]

variable [Target]

/-- The timer is polled last and looks at what the input left. -/
theorem Timed.allowed (hinv : Inv s) {cx : W} {input : Work} {work : Outcome E}
    (h : Timed s cx input work s') : Allowed s' := by
  unfold Allowed
  cases h with
  | unarmed htx =>
      intro hzero
      exact htx (hinv.waiting_of_final (by rw [hzero]; rfl))
  | pending _ _ hfinal => simp [hfinal]
  | expired => simp [finalInputLen, ackFrameLen]
  | timeout => simp
  | requeue => simp
  | listening left _ hfinal _ hleft => simp [hfinal, hleft]

theorem Step.allowed (hinv : Inv s) (h : Allowed s) {cx : W} {budget budget' : Budget}
    {work : Outcome E} (hstep : Step s cx budget work budget' s') : Allowed s' := by
  cases hstep with
  | output houtput => exact h.output houtput
  | input houtput hinput =>
      have h₁ := h.output houtput
      cases hinput with
      | error => exact h₁
      | eof => exact h₁
  | timer houtput hinput htimer =>
      have hinv₁ := hinv.turns houtput.turns
      exact htimer.allowed (hinv₁.turns (hinput.turns hinv₁))
  | done houtput hinput htimer =>
      have hinv₁ := hinv.turns houtput.turns
      exact htimer.allowed (hinv₁.turns (hinput.turns hinv₁))

/-- A step yields if the budget has run out, and spends some of it otherwise. -/
theorem step_spends [Transport T W E] [Timer C W] (hN : Fits N) (h : Inv s) (hsettled : Settled s)
    (hallowed : Allowed s) (cx : W)
    (budget : Budget) :
    Returns (s.step cx budget) fun r => Step s cx budget r.1 r.2.1 r.2.2 ∧
      (false ∈ s.stepSpends cx budget ↔ r.1 = .ok .yield) ∧
        (r.1 ≠ .ok .yield → r.2.1.left < budget.left) := by
  obtain ⟨⟨output, budget₁, s₁⟩, hrun₁, houtput, hspends⟩ := pollOutput_spends hN h cx budget
  have hsettled₁ := hsettled.of_sameInput houtput.sameInput
  have hle := houtput.budget_le
  unfold step stepSpends
  rw [hrun₁]
  simp only [bind, Option.bind_some]
  cases output with
  | error error =>
      refine ⟨_, rfl, .output houtput, by simpa using hspends, fun _ => ?_⟩
      cases houtput with
      | write _ hleft => exact hleft ▸ Nat.lt_succ_self _
      | flush _ hleft => exact hleft ▸ Nat.lt_succ_self _
  | ok output =>
      obtain ⟨⟨input, budget₂, s₂⟩, hrun₂, hinput⟩ :=
        pollInput_returns hN hsettled₁.rxLen_lt.le cx budget₁
      have hyield := hinput.yield_iff
      -- where the output is starved the input is, too
      have hboth : (false ∈ s.outputSpends budget ++ [budget₁.spend.1]) ↔ input = .ok .yield := by
        rw [List.mem_append, List.mem_singleton, hspends, eq_comm (a := false), hyield,
          or_iff_right_iff_imp]
        rintro heq
        cases heq
        exact hyield.mp (spend_eq_false.mpr houtput.exhausted)
      rw [hrun₂]
      dsimp only [Option.bind_some]
      cases input with
      | error error =>
          exact ⟨_, rfl, .input houtput hinput, by simpa using hboth,
            fun _ => (hinput.spends (by simp)).trans_le hle⟩
      | ok input =>
          obtain ⟨⟨timer, s₃⟩, hrun₃, htimer⟩ := pollTimer_returns s₂ cx input
          simp only [hrun₃, Option.bind_some]
          cases timer with
          | error error =>
              -- the timer raises its error behind a read, or behind a spent allowance
              have hne : input ≠ .yield := by
                rintro rfl
                cases hinput
                cases htimer with
                | timeout left _ hfinal hspent =>
                    obtain rfl := hspent.resolve_left (by simp)
                    exact (hallowed.output houtput) hfinal
              exact ⟨_, rfl, .timer houtput hinput htimer, by simpa [hne] using hboth,
                fun _ => (hinput.spends (by simpa using hne)).trans_le hle⟩
          | ok timer =>
              have htimer_ne : timer ≠ .yield := by
                rintro rfl
                cases htimer
              have hmax : Except.ok (ε := ConnectionError E) ((output.max input).max timer) =
                  .ok .yield ↔ Except.ok (ε := ConnectionError E) input = .ok .yield := by
                simp only [Except.ok.injEq, Work.max_eq_yield, htimer_ne, or_false, or_iff_right_iff_imp]
                rintro rfl
                exact Except.ok.inj (hboth.mp (List.mem_append_left _ (hspends.mpr rfl)))
              refine ⟨_, rfl, .done houtput hinput htimer, hboth.trans hmax.symm, fun hne => ?_⟩
              exact (hinput.spends fun heq => hne (hmax.mpr heq)).trans_le hle

/-! ## The budget of a drive -/

/-- One iteration, up to the point where `step` has returned. -/
theorem Step.counts {cx : W} {budget budget' : Budget} {work : Outcome E}
    (h : Step (s.log .step) cx budget work budget' s') :
    ∃ events, s'.trace = s.trace ++ events ∧ asked events + budget'.left = budget.left ∧
      iterations events = 1 ∧ wokenByRef events = [] := by
  obtain ⟨events, htrace, hinside⟩ := h.acts.adds
  have hspent := h.spent
  have hinner : ∀ event ∈ events, event.isStep = false ∧ event.wokenByRef? = none := by
    intro event hevent
    have hofStep := hinside event hevent
    cases event <;> first | exact ⟨rfl, rfl⟩ | cases hofStep
  have hnone : iterations events = 0 := List.countP_eq_zero.mpr fun event hevent => by
    simp [(hinner event hevent).1]
  have hwoken : wokenByRef events = [] := List.filterMap_eq_nil_iff.mpr fun event hevent =>
    (hinner event hevent).2
  rw [htrace, log_trace, asked_append, asked_append] at hspent
  refine ⟨.step :: events, by rw [htrace, log_trace, List.append_assoc]; rfl, ?_, ?_, hwoken⟩
  · simp only [asked_cons, asked_nil, Event.asks, Bool.false_eq_true, if_false] at hspent ⊢
    omega
  · rw [show iterations (.step :: events) = iterations events + 1 from List.countP_cons_of_pos rfl,
      hnone]

/-- An iteration that does not yield. -/
theorem Step.costs {cx : W} {budget budget' : Budget} {work : Outcome E} {spends : List Bool}
    (h : Step (s.log .step) cx budget work budget' s') (hspends : false ∉ spends)
    (hleft : budget'.left < budget.left) :
    ∃ events, s'.trace = s.trace ++ events ∧ Costs cx spends budget budget' events := by
  obtain ⟨events, htrace, hasked, hsteps, hwoken⟩ := h.counts
  refine ⟨events, htrace, hasked, ?_, ?_⟩
  · rw [if_neg hspends]
    omega
  · rwa [if_neg hspends]

/-- The loop wakes its task when it ends because the budget has run out, and only then. -/
theorem driveLoop_costs [Transport T W E] [Timer C W] (hN : Fits N) (h : Inv s)
    (hsettled : Settled s) (hallowed : Allowed s)
    (cx : W) {fuel : Nat} {budget : Budget} (hfuel : budget.left < fuel) :
    Returns (driveLoop cx fuel s budget) fun r => DriveLoop cx s budget r.1 r.2.1 r.2.2 ∧
      (false ∈ driveLoopSpends cx fuel s budget ↔ r.1 = .yield) ∧
        ∃ events, r.2.2.trace = s.trace ++ events ∧
          Costs cx (driveLoopSpends cx fuel s budget) budget r.2.1 events := by
  -- Only a step that leaves the budget smaller goes round again, so the fuel outlasts the budget.
  induction fuel generalizing s budget with
  | zero => exact absurd hfuel (Nat.not_lt_zero _)
  | succ fuel ih =>
      have hinv : Inv (s.log .step) := h.turns ((Turns.refl s).note _ rfl)
      have hsettled₀ : Settled (s.log .step) :=
        hsettled.of_sameInput ((SameInput.refl s).log .step rfl rfl)
      obtain ⟨⟨result, budget₁, s₁⟩, hrun, hstep, hspends, hleft⟩ :=
        step_spends hN hinv hsettled₀ hallowed cx budget
      dsimp only at hstep hspends hleft
      rw [driveLoop, driveLoopSpends, hrun]
      simp only [bind, Option.bind_some]
      cases result with
      | error error =>
          have hnone : false ∉ (s.log .step).stepSpends cx budget := by simp [hspends]
          obtain ⟨events, htrace, hcosts⟩ := hstep.costs hnone (hleft (by simp))
          refine ⟨_, rfl, .error hstep, by simpa using hnone, events ++ [Event.stepped (.error error)],
            by simp [fail_eq, htrace], ?_⟩
          rw [List.append_nil]
          exact hcosts.then (by simp [Event.free, Event.asks])
      | ok work =>
          cases work with
          | progress =>
              have hnone : false ∉ (s.log .step).stepSpends cx budget := by simp [hspends]
              have hless := hleft (by simp)
              obtain ⟨events, htrace, hcosts⟩ := hstep.costs hnone hless
              have hallowed₁ : Allowed s₁ := Step.allowed hinv hallowed hstep
              have hinv₁ : Inv (s₁.log (.stepped (.ok .progress))) :=
                hinv.turns ((hstep.turns hinv).note _ rfl)
              have hfuel₁ : budget₁.left < fuel := by omega
              obtain ⟨⟨work', budget₂, s₂⟩, hrun', hloop, hyield, events', htrace', hcosts'⟩ :=
                ih hinv₁ (hsettled₀.receives (hstep.receives.log _ rfl rfl)) hallowed₁ hfuel₁
              refine ⟨_, hrun', .progress hstep hloop, by simpa [hnone] using hyield,
                (events ++ [.stepped (.ok .progress)]) ++ events', ?_, ?_⟩
              · dsimp only at htrace'
                rw [htrace', log_trace, htrace]
                simp only [List.append_assoc]
              · exact (hcosts.then (by simp [Event.free, Event.asks])).append hcosts' hnone
          | blocked =>
              have hnone : false ∉ (s.log .step).stepSpends cx budget := by simp [hspends]
              obtain ⟨events, htrace, hcosts⟩ := hstep.costs hnone (hleft (by simp))
              refine ⟨_, rfl, .blocked hstep, by simpa using hnone, events ++ [.stepped (.ok .blocked)],
                by simp [htrace], ?_⟩
              rw [List.append_nil]
              exact hcosts.then (by simp [Event.free, Event.asks])
          | yield =>
              have hsome : false ∈ (s.log .step).stepSpends cx budget := hspends.mpr rfl
              obtain ⟨events, htrace, hasked, hsteps, hwoken⟩ := hstep.counts
              refine ⟨_, rfl, .yield hstep, by simpa using hsome,
                events ++ [Event.stepped (.ok .yield), Event.wakeByRef cx], by simp [htrace], ?_⟩
              rw [List.append_nil]
              refine ⟨?_, ?_, ?_⟩
              · simpa [Event.asks] using hasked
              · rw [if_pos hsome, iterations_append, hsteps, hstep.exhausted]
                simp [iterations, Event.isStep]
              · rw [if_pos hsome, wokenByRef_append, hwoken]
                rfl

theorem drive_costs [Transport T W E] [Timer C W] (hN : Fits N) (h : Inv s) (hsettled : Settled s)
    (hallowed : Allowed s)
    (cx : W) (budget : Budget) :
    Returns (s.drive cx budget) fun r => Drive s cx budget r.1 r.2.1 r.2.2 ∧
      (false ∈ s.driveSpends cx budget ↔ r.1 = .yield) ∧
        ∃ events, r.2.2.trace = s.trace ++ events ∧
          Costs cx (s.driveSpends cx budget) budget r.2.1 events := by
  unfold drive driveSpends
  by_cases hhealth : s.health = .ok
  · simp only [hhealth]
    exact (driveLoop_costs hN h hsettled hallowed cx (Nat.lt_succ_self _)).mono
      fun r hr => ⟨.loop hhealth hr.1, hr.2⟩
  · have hstopped : Drive s cx budget .blocked budget s := .stopped hhealth
    have hcosts : Costs cx [] budget budget ([] : List (Event W E)) := costs_of_free (by simp)
    cases hs : s.health with
    | ok => exact absurd hs hhealth
    | _ => exact .ret ⟨hstopped, by simp, [], (List.append_nil _).symm, hcosts⟩

omit [Target] in
theorem allowed_fail (s : Reliable T C W E N) (error : ConnectionError E) :
    Allowed (s.fail error) := by
  rw [fail_eq]
  simp [Allowed]

theorem Drive.allowed (hinv : Inv s) (h : Allowed s) {cx : W} {budget budget' : Budget} {work : Work}
    (hdrive : Drive s cx budget work budget' s') : Allowed s' := by
  have hstep : ∀ {s s₁ : Reliable T C W E N} {budget budget₁ : Budget} {work : Outcome E}, Inv s →
      Allowed s → Step (s.log .step) cx budget work budget₁ s₁ → Inv s₁ ∧ Allowed s₁ := by
    intro s s₁ budget budget₁ work hinv h hstep
    have hlog : Inv (s.log .step) := hinv.turn (.note s _ rfl)
    exact ⟨hlog.turns (hstep.turns hlog), Step.allowed hlog h hstep⟩
  cases hdrive with
  | stopped => exact h
  | loop hhealth hloop =>
      clear hhealth
      induction hloop with
      | progress hstep' _ ih =>
          obtain ⟨hinv₁, h₁⟩ := hstep hinv h hstep'
          exact ih (hinv₁.turn (.note _ _ rfl)) h₁
      | blocked hstep' => exact (hstep hinv h hstep').2
      | yield hstep' => exact (hstep hinv h hstep').2
      | error => exact allowed_fail _ _

/-! ## The budget of a call -/

section

omit [Target]

/-- Waiters are woken for free. -/
theorem Woken.free (h : Woken s s') : Adds (fun event => event.free) s s' := by
  obtain ⟨waiters, wakes, rfl, hwakes⟩ := h
  refine ⟨wakes, rfl, fun event hevent => ?_⟩
  obtain ⟨op, waker, rfl⟩ := hwakes event hevent
  rfl

theorem failure_trace (s : Reliable T C W E N) : s.failure.2.trace = s.trace := by
  unfold failure
  split <;> rfl

theorem exhaust_free (s : Reliable T C W E N) : Adds (fun event => event.free) s s.exhaust := by
  unfold exhaust
  split
  · rw [fail_eq]
    exact .of_snoc (show _ = s.trace ++ [.exhausted] from rfl) rfl
  · exact .of_eq rfl

/-- What a call costs, up to its return. -/
def Spent (s : Reliable T C W E N) (cx : W) (spends : List Bool) (s' : Reliable T C W E N) : Prop :=
  ∃ budget events, s'.trace = s.trace ++ events ∧ Costs cx spends .new budget events

theorem Spent.free {cx : W} {spends : List Bool} {s₁ : Reliable T C W E N}
    (h : Spent s cx spends s₁) (hfree : Adds (fun event => event.free) s₁ s') :
    Spent s cx spends s' := by
  obtain ⟨budget, events, htrace, hcosts⟩ := h
  obtain ⟨events', htrace', hfree⟩ := hfree
  exact ⟨budget, events ++ events', by rw [htrace', htrace, List.append_assoc], hcosts.then hfree⟩

end

/-- The state behind `encoded`, from which the second drive starts. -/
theorem encoded_returns (hN : Fits N) (h : Inv s) (hsettled : Settled s) (hallowed : Allowed s)
    (hready : s.writeReady = true) (hnext : s.txNext ≤ u32Max) {buf : List UInt8} (hne : buf ≠ []) :
    Returns (s.encoded buf) fun s' => Inv s' ∧ Settled s' ∧ Allowed s' ∧
      s'.trace = s.trace ++ [Event.queued (UInt32.ofNat s.txNext) (buf.take (maxPayload N))] := by
  obtain ⟨hpne, hple⟩ := take_maxPayload hN hne
  obtain ⟨⟨txLen, scratch, txFrame⟩, hencode, hlen, hframe⟩ :=
    encodeData_fits hN s.config.session (UInt32.ofNat s.txNext) hple s.scratch s.txFrame
  have hmoves := moves_queued hready hnext hpne hple scratch hlen hframe
  refine ⟨_, ?_, h.moves hN hmoves,
    hsettled.of_sameInput (.of_trace rfl rfl rfl rfl rfl rfl), hallowed, rfl⟩
  rw [encoded, hencode]
  rfl

variable [Transport T W E] [Timer C W]

/-- `queue_packet` where it accepts a packet. -/
theorem queuePacket_encoded {cx : W} {buf : List UInt8} {work : Work} {budget : Budget}
    {s₁ s₂ : Reliable T C W E N} (hrun : s.drive cx .new = some (work, budget, s₁))
    (hhealth : s₁.health = .ok) (hready : s₁.writeReady = true) (hnext : s₁.txNext ≤ u32Max)
    (hencoded : s₁.encoded buf = some s₂) :
    s.queuePacket cx buf =
      if work ≠ .yield then (s₂.drive cx budget).bind fun r =>
        some (.ready (.ok (min buf.length (maxPayload N))), r.2.2)
      else some (.ready (.ok (min buf.length (maxPayload N))), s₂) := by
  have hexhaust : s₁.exhaust = s₁ := by
    rw [exhaust, if_neg (by simpa using fun _ => hnext)]
  have hsum : checkedAdd u64Max s₁.txNext 1 = some (s₁.txNext + 1) :=
    checkedAdd_eq (by simp only [u32Max, u64Max] at *; omega)
  obtain ⟨⟨txLen, scratch, txFrame⟩, hencode, rfl⟩ := Option.map_eq_some_iff.mp hencoded
  unfold queuePacket
  rw [hrun]
  simp only [bind, Option.bind_some, Bool.not_not, ite_exhaust]
  rw [hexhaust, failure_of_ok hhealth, slice_zero (Nat.min_le_left _ _), Nat.min_comm,
    ← List.take_eq_take_min]
  simp only [hready, Bool.not_true, Bool.false_eq_true, if_false, Option.bind_some, hencode, hsum]

/-- `queue_packet` where it accepts none: nothing is added behind the drive but its failure. -/
theorem queuePacket_refused {cx : W} {buf : List UInt8} {work : Work} {budget : Budget}
    {s₁ : Reliable T C W E N} (hrun : s.drive cx .new = some (work, budget, s₁))
    (hstop : ¬ (s₁.health = .ok ∧ s₁.writeReady ∧ s₁.txNext ≤ u32Max)) :
    Returns (s.queuePacket cx buf) fun r => Adds (fun event => event.free) s₁ r.2 := by
  unfold queuePacket
  rw [hrun]
  simp only [bind, Option.bind_some, Bool.not_not, ite_exhaust]
  by_cases hhealth : s₁.exhaust.health = .ok
  · obtain ⟨hsame, hnext⟩ | ⟨-, hfailed⟩ := exhaust_cases s₁
    · rw [failure_of_ok hhealth]
      rw [hsame] at hhealth ⊢
      cases hready : s₁.writeReady with
      | true => exact absurd ⟨hhealth, hready, hnext hready⟩ hstop
      | false => exact .ret (.of_eq rfl)
    · exact absurd hhealth hfailed
  · obtain ⟨error, s₂, hfailure⟩ := failure_of_ne hhealth
    have htrace₂ : s₂.trace = s₁.exhaust.trace := by
      rw [← failure_trace s₁.exhaust, hfailure]
    rw [hfailure]
    exact .ret ((exhaust_free s₁).trans (.of_eq htrace₂))

/-- `queue_packet` drives twice on one budget. -/
theorem queuePacket_costs (hN : Fits N) (h : Inv s) (hsettled : Settled s) (hallowed : Allowed s)
    (cx : W) {buf : List UInt8} (hne : buf ≠ []) :
    Returns (s.queuePacket cx buf) fun r => Spent s cx (s.queueSpends cx buf) r.2 := by
  obtain ⟨⟨work, budget, s₁⟩, hrun, hdrive, hyield, events, htrace, hcosts⟩ :=
    drive_costs hN h hsettled hallowed cx .new
  dsimp only at hdrive hyield htrace hcosts
  have hspent : Spent s cx (s.driveSpends cx .new) s₁ := ⟨budget, events, htrace, hcosts⟩
  have hmatch : (s₁.health matches .ok) = true ↔ s₁.health = .ok := by
    cases s₁.health <;> simp
  unfold queueSpends
  rw [hrun]
  by_cases hgo : s₁.health = .ok ∧ s₁.writeReady ∧ s₁.txNext ≤ u32Max
  · obtain ⟨hhealth, hready, hnext⟩ := hgo
    obtain ⟨s₂, hencoded, hinv₂, hsettled₂, hallowed₂, hqueued⟩ :=
      encoded_returns hN (h.moves hN (hdrive.moves h)) (hsettled.receives hdrive.receives)
        (hdrive.allowed h hallowed) hready hnext hne
    rw [queuePacket_encoded hrun hhealth hready hnext hencoded]
    dsimp only
    by_cases hyielded : work = .yield
    · rw [if_neg (by simp [hyielded]), if_neg (by simp [hyielded]), List.append_nil]
      exact .ret (hspent.free (.of_snoc hqueued rfl))
    · obtain ⟨⟨work', budget', s'⟩, hrun', -, -, events', htrace', hcosts'⟩ :=
        drive_costs hN hinv₂ hsettled₂ hallowed₂ cx budget
      rw [if_pos hyielded, if_pos ⟨hyielded, hmatch.mpr hhealth, hready, hnext⟩, hencoded, hrun']
      dsimp only at htrace' hcosts'
      -- the second drive goes on with what the first one left of the budget
      refine .ret ⟨budget', events ++ [Event.queued (UInt32.ofNat s₁.txNext) (buf.take (maxPayload N))] ++
        events', ?_, ?_⟩
      · rw [htrace', hqueued, htrace]
        simp only [List.append_assoc]
      · have hnone : false ∉ s.driveSpends cx .new := fun hmem => hyielded (hyield.mp hmem)
        exact (hcosts.then (by simp [Event.free, Event.asks])).append hcosts' hnone
  · dsimp only
    rw [if_neg (fun hall => hgo ⟨hmatch.mp hall.2.1, hall.2.2⟩), List.append_nil]
    exact (queuePacket_refused hrun hgo).mono fun r hr => hspent.free hr

variable [Waker W]

/-- Behind its drive a `poll_read` costs nothing. -/
theorem pollRead_free {n : Nat} {cx : W} {buf buf' : Bytes n} {work : Work} {budget : Budget}
    {s₁ : Reliable T C W E N} {poll : Poll (Except (ConnectionError E) Nat)} (hn : n ≠ 0)
    (hdrive : s.drive cx .new = some (work, budget, s₁))
    (h : s.pollRead cx buf = some (poll, buf', s')) : Adds (fun event => event.free) s₁ s' := by
  have hfailed : Adds (fun event => event.free) s₁ s₁.failure.2 := .of_eq (failure_trace s₁)
  rw [pollRead, if_neg hn, hdrive] at h
  simp only [bind, Option.bind_some] at h
  split at h
  · obtain ⟨stop, -, h⟩ := Option.bind_eq_some_iff.mp h
    obtain ⟨bytes, -, h⟩ := Option.bind_eq_some_iff.mp h
    obtain ⟨buf₁, -, h⟩ := Option.bind_eq_some_iff.mp h
    cases h
    have hdelivered : Adds (fun event => event.free) s₁
        ({ s₁ with rxStart := stop }.log (.delivered bytes)) := .of_snoc rfl rfl
    exact hdelivered.trans (finish_woken _ _ _ _).free
  · generalize s₁.failure = failure at h hfailed
    obtain ⟨_ | error, s₂⟩ := failure <;> cases h <;>
      exact hfailed.trans (finish_woken _ _ _ _).free

/-- Behind its drive a `poll_flush` costs nothing. -/
theorem pollFlush_free {cx : W} {work : Work} {budget : Budget} {s₁ : Reliable T C W E N}
    {poll : Poll (Except (ConnectionError E) Unit)}
    (hdrive : s.drive cx .new = some (work, budget, s₁)) (h : s.pollFlush cx = some (poll, s')) :
    Adds (fun event => event.free) s₁ s' := by
  have hfailed : Adds (fun event => event.free) s₁ s₁.failure.2 := .of_eq (failure_trace s₁)
  rw [pollFlush, hdrive] at h
  simp only [bind, Option.bind_some] at h
  generalize s₁.failure = failure at h hfailed
  obtain ⟨_ | error, s₂⟩ := failure <;> cases h <;>
    exact hfailed.trans (finish_woken _ _ _ _).free

/-- Behind its drive a `poll_progress` costs nothing. -/
theorem pollProgress_free {cx : W} {work : Work} {budget : Budget} {s₁ : Reliable T C W E N}
    {poll : Poll (ConnectionError E)} (hdrive : s.drive cx .new = some (work, budget, s₁))
    (h : s.pollProgress cx = some (poll, s')) : Adds (fun event => event.free) s₁ s' := by
  have hfailed : Adds (fun event => event.free) s₁ s₁.failure.2 := .of_eq (failure_trace s₁)
  rw [pollProgress, hdrive] at h
  simp only [bind, Option.bind_some] at h
  generalize s₁.failure = failure at h hfailed
  obtain ⟨_ | error, s₂⟩ := failure <;> cases h <;>
    exact hfailed.trans (finish_woken _ _ _ _).free

/-- Every call stays within its budget. -/
theorem dispatch_costs (hN : Fits N) (h : Inv s) (hsettled : Settled s) (hallowed : Allowed s)
    (call : Call W) : Returns (s.dispatch call) fun r =>
      match call.waker? with
      | some cx => Spent s cx (s.callSpends call) r.2
      | none => Adds (fun event => event.free) s r.2 := by
  obtain ⟨⟨ret, s'⟩, hrun, hdispatch⟩ := dispatch_returns hN h hsettled call
  refine ⟨_, hrun, ?_⟩
  -- An empty buffer is answered before the connection is driven, and spends nothing.
  have hempty : ∀ cx : W, Spent s cx [] s := fun cx =>
    ⟨.new, [], (List.append_nil _).symm, costs_of_free (by simp)⟩
  have hdriven : ∀ (cx : W), ∃ work budget s₁, s.drive cx .new = some (work, budget, s₁) ∧
      Spent s cx (s.driveSpends cx .new) s₁ := by
    intro cx
    obtain ⟨⟨work, budget, s₁⟩, hdrive, -, -, events, htrace, hcosts⟩ :=
      drive_costs hN h hsettled hallowed cx .new
    exact ⟨work, budget, s₁, hdrive, budget, events, htrace, hcosts⟩
  cases call with
  | read cx buf =>
      by_cases hne : buf = []
      · subst hne
        cases hrun
        exact hempty cx
      · obtain ⟨work, budget, s₁, hdrive, hspent⟩ := hdriven cx
        obtain ⟨⟨poll, buf', s₂⟩, hread, hret⟩ := Option.bind_eq_some_iff.mp hrun
        cases hret
        show Spent s cx (if buf = [] then [] else _) s'
        rw [if_neg hne]
        exact hspent.free (pollRead_free (by simpa using hne) hdrive hread)
  | write cx buf =>
      by_cases hne : buf = []
      · subst hne
        cases hrun
        exact hempty cx
      · obtain ⟨⟨poll, s₁⟩, hqueue, hspent⟩ := queuePacket_costs hN h hsettled hallowed cx hne
        rw [Reliable.dispatch, pollWrite, if_neg hne, hqueue] at hrun
        cases hrun
        show Spent s cx (if buf = [] then [] else _) _
        rw [if_neg hne]
        exact hspent.free (finish_woken _ _ _ _).free
  | flush cx =>
      obtain ⟨work, budget, s₁, hdrive, hspent⟩ := hdriven cx
      obtain ⟨⟨poll, s₂⟩, hflush, hret⟩ := Option.bind_eq_some_iff.mp hrun
      cases hret
      exact hspent.free (pollFlush_free hdrive hflush)
  | progress cx =>
      obtain ⟨work, budget, s₁, hdrive, hspent⟩ := hdriven cx
      obtain ⟨⟨poll, s₂⟩, hprogress, hret⟩ := Option.bind_eq_some_iff.mp hrun
      cases hret
      exact hspent.free (pollProgress_free hdrive hprogress)
  | cancel operation =>
      cases hrun
      exact (cancelPending_woken s operation).free

/-! ## Runs -/

omit [Waker W] [Transport T W E] [Timer C W] in
theorem Visited.allowed (h : Visited Stepped s) : Allowed s := by
  refine h.keep (fun _ _ _ => by simp [Allowed, initial]) fun hvisited hold hbeat => ?_
  cases hbeat with
  | inside _ hstep =>
      obtain ⟨cx, budget, budget', work, hstep⟩ := hstep
      exact Step.allowed (hvisited.through covers_stepped).inv hold hstep
  | fail error => exact allowed_fail _ error
  | note => exact hold
  | report => exact hold
  | queue => exact hold
  | deliver => exact hold
  | environment => exact hold
  | wake hwoken =>
      obtain ⟨waiters, wakes, rfl, -⟩ := hwoken
      exact hold

/-- What a call costs. -/
structure WithinBudget (s : Reliable T C W E N) (call : Call W) (events : List (Event W E)) :
    Prop where
  asked : asked events ≤ stepBudget
  iterations : iterations events ≤ stepBudget + 1
  /-- `drive` wakes the caller once if a `Budget::spend` returned `false`, and nobody otherwise. -/
  woken : wokenByRef events = if false ∈ s.callSpends call then call.waker?.toList else []

omit [Waker W] in
theorem Spent.within {call : Call W} {cx : W} (h : Spent s cx (s.callSpends call) s')
    (hwaker : call.waker? = some cx) :
    ∃ events, s'.trace = s.trace ++ events ∧ WithinBudget s call events := by
  obtain ⟨budget, events, htrace, hcosts⟩ := h
  have hasked : asked events + budget.left = stepBudget := hcosts.asked
  have hsteps : iterations events + budget.left ≤
      stepBudget + if false ∈ s.callSpends call then 1 else 0 := hcosts.iterations
  have hlast : (if false ∈ s.callSpends call then 1 else 0) ≤ 1 := by split <;> omega
  refine ⟨events, htrace, by omega, by omega, ?_⟩
  rw [hcosts.woken, hwaker]
  rfl

/-- Every call returns within its budget, and so does the loop of `process_input` in every state. -/
theorem Reachable.within_budget (h : Reachable s) :
    (∀ call, ∃ ret s' events, s.call call = some (ret, s') ∧ s'.trace = s.trace ++ events ∧
      WithinBudget s call events) ∧
        ∀ t : Reliable T C W E N, t.rxLen ≤ N → ∃ t', t.processInput = some t' := by
  refine ⟨fun call => ?_, fun t hlen => ?_⟩
  · have hallowed := (h.visited covers_stepped).allowed
    obtain ⟨⟨ret, s'⟩, hdispatch, hcosts⟩ :=
      dispatch_costs h.sound.fits h.sound.inv h.sound.settled hallowed call
    have hcall : s.call call = some (ret, s'.log (.returned call ret)) :=
      call_eq_some.mpr ⟨s', hdispatch, rfl⟩
    have hreturned : Adds (fun event => event.free) s' (s'.log (.returned call ret)) :=
      .of_snoc rfl rfl
    suffices hevents : ∃ events, (s'.log (.returned call ret)).trace = s.trace ++ events ∧
        WithinBudget s call events by
      obtain ⟨events, htrace, hwithin⟩ := hevents
      exact ⟨ret, _, events, hcall, htrace, hwithin⟩
    cases call with
    | read cx buf => exact (Spent.free hcosts hreturned).within rfl
    | write cx buf => exact (Spent.free hcosts hreturned).within rfl
    | flush cx => exact (Spent.free hcosts hreturned).within rfl
    | progress cx => exact (Spent.free hcosts hreturned).within rfl
    | cancel operation =>
        -- nothing is driven
        obtain ⟨events, htrace, hfree⟩ := Adds.trans hcosts hreturned
        obtain ⟨hasked, hsteps, hwoken⟩ := counts_of_free hfree
        exact ⟨events, htrace, by omega, by omega, hwoken⟩
  · obtain ⟨t', hrun, -⟩ := processInputLoop_returns h.sound.fits hlen (Nat.lt_succ_self _)
    exact ⟨t', hrun⟩

omit [Target] in
/-- A link that always has bytes uses up the budget of a poll, which wakes its task. -/
theorem within_budget_flood : letI := target64
    ∃ ret s' events, (testConnection (List.replicate 400 1)).call (.progress 3) = some (ret, s') ∧
      s'.trace = (testConnection (List.replicate 400 1)).trace ++ events ∧
        asked events = 16 ∧ wokenByRef events = [3] ∧
          WithinBudget (testConnection (List.replicate 400 1)) (.progress 3) events := by
  let := target64
  have hreachable : (testConnection (List.replicate 400 1)).Reachable :=
    @reachable_testConnection (List.replicate 400 1) [] _ rfl
  obtain ⟨ret, s', events, hcall, htrace, hwithin⟩ := hreachable.within_budget.1 (.progress 3)
  have hstate : ((testConnection (List.replicate 400 1)).call (.progress 3)).map
      (fun r => (asked r.2.trace, wokenByRef r.2.trace)) = some (16, [3]) := by decide +kernel
  rw [hcall, Option.map_some, htrace] at hstate
  obtain ⟨hasked, hwoken⟩ := Prod.mk.inj (Option.some.inj hstate)
  exact ⟨ret, s', events, hcall, htrace, hasked, hwoken, hwithin⟩

end Runs

end Reliable

end CobsIoAsync.Connection
