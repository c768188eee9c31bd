import CobsIoAsync.Connection.Pending

/-!
# Connection.Waiting — who waits, and who is woken

A stored waiter waits for a condition that does not hold, of a connection that has not failed, and
the last poll that drove the connection belongs to a stored waiter.  A waiter is not forgotten: a
call keeps it, wakes it, completes or cancels its operation, or stores its operation's new waker.
-/

namespace CobsIoAsync.Connection

open Reasoning Protocol

variable {T C W E : Type} {N : Nat}

/-! ## Wakeups and polls in a trace -/

def Event.woken? (op : Op) : Event W E → Option W
  | .wake woken waker => if woken = op then some waker else none
  | _ => none

/-- The stored waiters of an operation that were woken. -/
def woken (op : Op) (trace : List (Event W E)) : List W := trace.filterMap (Event.woken? op)

/-- Whether a call drives the connection. -/
def Call.drives : Call W → Bool
  | .read _ buf | .write _ buf => !buf.isEmpty
  | .flush _ | .progress _ => true
  | .cancel _ => false

def Event.poll? : Event W E → Option (Call W × Return E)
  | .returned call ret => if call.drives then some (call, ret) else none
  | _ => none

/-- The polls that drove the connection, and what they returned. -/
def polls (trace : List (Event W E)) : List (Call W × Return E) := trace.filterMap Event.poll?

/-- An event that wakes a task. -/
def Event.wakes : Event W E → Bool
  | .wake .. | .wakeByRef _ => true
  | _ => false

/-- Events that neither wake a stored waiter nor return. -/
def Event.during : Event W E → Bool
  | .wake .. | .returned .. => false
  | _ => true

section Append

variable (op : Op) (t u : List (Event W E))

@[simp] theorem woken_append : woken op (t ++ u) = woken op t ++ woken op u := List.filterMap_append

@[simp] theorem woken_returned (call : Call W) (ret : Return E) :
    woken op [.returned call ret] = [] := rfl

@[simp] theorem polls_append : polls (t ++ u) = polls t ++ polls u := List.filterMap_append

theorem polls_returned (call : Call W) (ret : Return E) :
    polls [.returned call ret] = if call.drives then [(call, ret)] else [] := by
  cases h : call.drives <;> simp [polls, Event.poll?, h]

end Append

theorem woken_during {op : Op} {events : List (Event W E)} (h : ∀ event ∈ events, event.during) :
    woken op events = [] :=
  List.filterMap_eq_nil_iff.mpr fun event hevent => by
    have := h event hevent
    cases event <;> simp_all [Event.during, Event.woken?]

namespace Reliable

variable {s s' s'' s₁ : Reliable T C W E N}

/-! ## The end of a call -/

/-- The wakeups of `wakeWhere`, for one operation. -/
theorem woken_wakeWhere (p : Op → Bool) (slot : Op → Option W) (op : Op) :
    woken op (ops.filterMap fun o => if p o then (slot o).map (Event.wake (E := E) o) else none) =
      if p op then (slot op).toList else [] := by
  have hone : ∀ o, ((if p o then (slot o).map (Event.wake (E := E) o) else none).bind
      (Event.woken? op)) = if o = op then (if p op then slot op else none) else none := by
    intro o
    by_cases ho : o = op
    · subst ho
      cases p o <;> cases slot o <;> simp [Event.woken?]
    · cases p o <;> cases slot o <;> simp [Event.woken?, ho]
  rw [woken, List.filterMap_filterMap]
  simp only [hone]
  generalize hwoken : (if p op then slot op else none) = waker
  have hlist : (if p op then (slot op).toList else []) = waker.toList := by
    rw [← hwoken]
    split <;> rfl
  rw [hlist]
  cases op <;> cases waker <;> rfl

/-- The waiter of `op` is dropped, and all others are woken. -/
def handOver (s : Reliable T C W E N) (op : Op) : Reliable T C W E N :=
  { s with waiters := s.waiters.clear op }.wakeWhere (· ≠ op)

/-- The waker of a call is stored, and the waiters whose condition holds are woken. -/
def wait [Waker W] (s : Reliable T C W E N) (op : Op) (cx : W) : Reliable T C W E N :=
  { s with waiters := s.waiters.register op cx }.wakeWhere fun o => o ≠ op && s.due false o

theorem cancelPending_handOver (s : Reliable T C W E N) (operation : PendingOperation) :
    s.cancelPending operation = s.handOver operation.op :=
  cancelPending_eq s operation

section

variable [Waker W]

/-- A completed call wakes everyone else. -/
theorem finish_ready {R : Type} (s : Reliable T C W E N) (op : Op) (cx : W) (value : R) :
    s.finish op cx (.ready value) = s.handOver op := by
  rw [finish, notify_eq, handOver]
  congr 1
  funext o
  simp [due]

theorem finish_pending {R : Type} (s : Reliable T C W E N) (op : Op) (cx : W)
    (hhealth : s.health = .ok) : s.finish op cx (.pending : Poll R) = s.wait op cx := by
  rw [finish, notify_eq, wait]
  simp only [hhealth]
  rfl

omit [Waker W] in
theorem slot_clear (waiters : Waiters W) (op o : Op) :
    (waiters.clear op).slot o = if o = op then none else waiters.slot o := by
  simp [Waiters.clear, Waiters.setSlot, Function.update_apply]

theorem slot_register (waiters : Waiters W) {op o : Op} (cx : W) (h : o ≠ op) :
    (waiters.register op cx).slot o = waiters.slot o := by
  simp only [Waiters.register]
  split
  · split <;> simp [Waiters.setSlot, h]
  · simp [Waiters.setSlot, h]

/-- The stored waker is the caller's, or wakes the same task. -/
theorem slot_register_self (waiters : Waiters W) (op : Op) (cx : W) :
    ∃ held, (waiters.register op cx).slot op = some held ∧
      (held = cx ∨ waiters.slot op = some held ∧ Waker.willWake held cx = true) := by
  unfold Waiters.register
  split
  · rename_i held hheld
    split
    · rename_i hsame
      exact ⟨held, hheld, .inr ⟨hheld, hsame⟩⟩
    · exact ⟨cx, by simp [Waiters.setSlot], .inl rfl⟩
  · exact ⟨cx, by simp [Waiters.setSlot], .inl rfl⟩

theorem slot_wait_self (s : Reliable T C W E N) (op : Op) (cx : W) :
    (s.wait op cx).waiters.slot op = (s.waiters.register op cx).slot op := by
  simp [wait, wakeWhere]

theorem slot_wait (s : Reliable T C W E N) {op o : Op} (cx : W) (h : o ≠ op) :
    (s.wait op cx).waiters.slot o = if s.due false o then none else s.waiters.slot o := by
  simp [wait, wakeWhere, h, slot_register]

end

/-- A completed call leaves no waiter, and wakes those of the other operations. -/
theorem handOver_eq (s : Reliable T C W E N) (op : Op) :
    ∃ wakes, s.handOver op = { s with waiters := .default, trace := s.trace ++ wakes } ∧
      ∀ o, woken o wakes = if o = op then [] else (s.waiters.slot o).toList := by
  refine ⟨ops.filterMap fun o =>
    if decide (o ≠ op) then ((s.waiters.clear op).slot o).map (.wake o) else none, ?_, fun o => ?_⟩
  · simp only [handOver, wakeWhere, Waiters.default]
    congr 2
    funext o
    by_cases h : o = op <;> simp [slot_clear, h]
  · rw [woken_wakeWhere]
    by_cases h : o = op <;> simp [slot_clear, h]

/-- A pending call wakes the waiters whose condition holds. -/
theorem wait_trace [Waker W] (s : Reliable T C W E N) (op : Op) (cx : W) :
    ∃ wakes, (s.wait op cx).trace = s.trace ++ wakes ∧
      (∀ o, woken o wakes =
        if o ≠ op ∧ s.due false o = true then (s.waiters.slot o).toList else []) ∧
      ((∀ o, s.due false o = true → s.waiters.slot o = none) → wakes = []) := by
  refine ⟨_, rfl, fun o => ?_, fun hnone => List.filterMap_eq_nil_iff.mpr fun o _ => ?_⟩
  · rw [woken_wakeWhere]
    by_cases h : o = op
    · simp [h]
    · simp [h, slot_register]
  · by_cases h : o = op
    · simp [h]
    · cases hdue : s.due false o with
      | false => simp [hdue]
      | true => simp [slot_register _ _ h, hnone o hdue]

/-! ## Before the end of a call -/

/-- Until a call ends, the waiters stay and none is woken. -/
structure Undisturbed (s s' : Reliable T C W E N) : Prop where
  adds : Adds (fun event => event.during) s s'
  waiters : s'.waiters = s.waiters

namespace Undisturbed

theorem refl (s : Reliable T C W E N) : Undisturbed s s := ⟨.of_eq rfl, rfl⟩

theorem trans (h : Undisturbed s s') (h' : Undisturbed s' s'') : Undisturbed s s'' :=
  ⟨h.adds.trans h'.adds, h'.waiters.trans h.waiters⟩

end Undisturbed

theorem Drive.undisturbed [Target] (hinv : Inv s) {cx : W} {budget budget' : Budget} {work : Work}
    (h : Drive s cx budget work budget' s') : Undisturbed s s' :=
  ⟨(h.adds hinv).mono fun event hevent => by
    cases event <;> simp_all [Event.inner, Event.during], h.waiters hinv⟩

theorem exhaust_undisturbed (s : Reliable T C W E N) : Undisturbed s s.exhaust := by
  unfold exhaust
  split
  · rw [fail_eq]
    exact ⟨.of_snoc (show _ = s.trace ++ [.exhausted] from rfl) rfl, rfl⟩
  · exact .refl s

theorem failure_undisturbed {error : ConnectionError E} (h : s.failure = (some error, s')) :
    Undisturbed s s' := by
  obtain ⟨rfl, -⟩ := failure_eq_some h
  exact ⟨.of_eq rfl, rfl⟩

variable [Target]

theorem QueuePacket.undisturbed (hN : Fits N) (hinv : Inv s) {cx : W} {buf : List UInt8}
    (hne : buf ≠ []) {poll : Poll (Except (ConnectionError E) Nat)}
    (h : QueuePacket s cx buf poll s') : Undisturbed s s' := by
  cases h with
  | failed hdrive hfailure =>
      exact ((hdrive.undisturbed hinv).trans (exhaust_undisturbed _)).trans
        (failure_undisturbed hfailure)
  | busy hdrive => exact hdrive.undisturbed hinv
  | @accepted _ _ s₁ s₂ _ payload _ _ _ hdrive _ hready hnext hpayload hlen hframe hqueued hsecond =>
      have hinv₂ := (accepted_moves hN (hinv.moves hN (hdrive.moves hinv)) hne hready hnext
        hpayload hlen hframe hqueued).2
      have hpacket : Undisturbed s₁ s₂ := by
        rw [hqueued]
        exact ⟨.of_snoc (show _ = s₁.trace ++ [.queued _ payload] from rfl) rfl, rfl⟩
      refine ((hdrive.undisturbed hinv).trans hpacket).trans ?_
      obtain ⟨-, rfl⟩ | ⟨-, work', budget', hdrive'⟩ := hsecond
      · exact .refl s'
      · exact hdrive'.undisturbed hinv₂

/-- A call that drives the connection completes by waking everyone else, or it is pending. -/
theorem Dispatch.completed [Waker W] (hN : Fits N) (hinv : Inv s) {call : Call W} {ret : Return E}
    (h : Dispatch s call ret s') (hret : ret.isPending = false) :
    (call.drives = false ∧ s' = s) ∨
      ∃ s₁, Undisturbed s s₁ ∧ s' = s₁.handOver call.op := by
  cases h with
  | readEmpty => exact .inl ⟨rfl, rfl⟩
  | @readData cx _ _ _ _ len s₁ hne hdrive =>
      refine .inr ⟨_, (hdrive.undisturbed hinv).trans ?_, finish_ready _ _ _ _⟩
      exact ⟨.of_snoc rfl rfl, rfl⟩
  | readError cx hne hdrive hdata hfailure =>
      exact .inr ⟨_, (hdrive.undisturbed hinv).trans (failure_undisturbed hfailure),
        finish_ready _ _ _ _⟩
  | readPending => cases hret
  | writeEmpty => exact .inl ⟨rfl, rfl⟩
  | @write cx buf poll s₁ hne hqueue =>
      cases poll with
      | pending => cases hret
      | ready value => exact .inr ⟨s₁, hqueue.undisturbed hN hinv hne, finish_ready _ _ _ _⟩
  | flushError cx hdrive hfailure =>
      exact .inr ⟨_, (hdrive.undisturbed hinv).trans (failure_undisturbed hfailure),
        finish_ready _ _ _ _⟩
  | flushReady cx hdrive => exact .inr ⟨_, hdrive.undisturbed hinv, finish_ready _ _ _ _⟩
  | flushPending => cases hret
  | progressError cx hdrive hfailure =>
      exact .inr ⟨_, (hdrive.undisturbed hinv).trans (failure_undisturbed hfailure),
        finish_ready _ _ _ _⟩
  | progressPending => cases hret
  | cancel operation => exact .inr ⟨s, .refl s, cancelPending_handOver s operation⟩

theorem Dispatch.drives [Waker W] {call : Call W} {ret : Return E} (h : Dispatch s call ret s')
    (hpending : ret.isPending = true) : call.drives = true := by
  cases h with
  | readPending cx hne => simpa [Call.drives] using hne
  | write cx hne => simpa [Call.drives] using hne
  | flushPending => rfl
  | progressPending => rfl
  | _ => cases hpending

/-! ## A blocked step -/

/-- A blocked step makes no condition hold that somebody may wait for. -/
theorem Step.due_blocked {cx : W} {budget budget' : Budget}
    (h : Step s cx budget (.ok .blocked) budget' s') {op : Op} (hdue : s.due false op = false) :
    s'.due false op = false := by
  have hstart : ∀ {s₁ : Reliable T C W E N}, Start s s₁ → s₁.due false op = false := by
    intro s₁ h
    cases h with
    | going => exact hdue
    | ack _ _ _ hout => cases op <;> simp_all [due, writeReady, flushReady, dataOutBusy, log]
    | data => cases op <;> simp_all [due, writeReady, flushReady, dataOutBusy, log]
  obtain ⟨budget₁, s₁, s₂, houtput, hinput, htimer⟩ := h.of_blocked
  have houtput : s₁.due false op = false := by
    cases houtput with
    | nothing => exact hdue
    | write h _ _ hwrite =>
        have hdue₁ := hstart h
        cases hwrite
        exact hdue₁
    | flush h _ _ hflush =>
        have hdue₁ := hstart h
        cases hflush
        exact hdue₁
  cases hinput with
  | pending => cases htimer <;> exact houtput

/-- A drive that goes through one blocked step wakes nobody, and leaves nobody to be woken. -/
theorem Drive.quiet (hinv : Inv s) {cx : W} {budget budget' : Budget} {work : Work}
    (h : Drive s cx budget work budget' s') (hhealth : s'.health = .ok) {events : List (Event W E)}
    (htrace : s'.trace = s.trace ++ events) (hprogress : .stepped (.ok .progress) ∉ events)
    (hyield : .stepped (.ok .yield) ∉ events) :
    (∀ event ∈ events, event.wakes = false) ∧
      ∀ op, s.due false op = false → s'.due false op = false := by
  cases h with
  | stopped hstopped => exact absurd hhealth hstopped
  | loop _ hloop =>
      cases hloop with
      | @progress _ s₁ _ _ _ _ _ hstep hloop =>
          have hstart : Inv (s.log .step) := hinv.turn (.note s _ rfl)
          have hturns := hstep.turns hstart
          obtain ⟨first, hfirst, -⟩ := hturns.inner.adds
          obtain ⟨rest, hrest, -⟩ := hloop.adds ((hstart.turns hturns).turn (.note s₁ _ rfl))
          -- A loop that goes round again records the progress it made.
          refine absurd ?_ hprogress
          have hevents : events = .step :: (first ++ .stepped (.ok .progress) :: rest) := by
            simpa [hrest, hfirst] using htrace.symm
          simp [hevents]
      | blocked hstep =>
          obtain ⟨last, hlast, hinside, -⟩ := hstep.armed
          have hevents : events = .step :: (last ++ [.stepped (.ok .blocked)]) := by
            simpa [hlast] using htrace.symm
          refine ⟨?_, fun op hdue => hstep.due_blocked hdue⟩
          rw [hevents]
          refine List.forall_mem_cons.mpr ⟨rfl, List.forall_mem_append.mpr ⟨fun event hevent => ?_,
            List.forall_mem_singleton.mpr rfl⟩⟩
          -- What a blocked step records is its polls, and none of them wakes.
          have := hinside event hevent
          cases event <;> simp_all [Event.ofStep, Event.inner, Event.wakes]
      | @yield _ s₁ _ _ hstep =>
          have hturns := hstep.turns (hinv.turn (.note s _ rfl))
          obtain ⟨first, hfirst, -⟩ := hturns.inner.adds
          refine absurd ?_ hyield
          have hevents : events = .step :: (first ++ [.stepped (.ok .yield), .wakeByRef cx]) := by
            simpa [hfirst] using htrace.symm
          simp [hevents]
      | error => exact absurd hhealth (health_fail _ _)

/-! ## The waiters -/

variable [Waker W]

/-- What the stored waiters wait for: a condition that does not hold, of a connection that has not
failed, whose transport and timer will wake the task of a stored waiter. -/
structure Waiting (s : Reliable T C W E N) : Prop where
  read : s.waiters.slot .read ≠ none → s.rxStart = s.rxEnd
  write : s.waiters.slot .write ≠ none → s.writeReady = false
  flush : s.waiters.slot .flush ≠ none → s.flushReady = false
  failed : s.health ≠ .ok → ∀ op, s.waiters.slot op = none
  last : ∀ op, s.waiters.slot op ≠ none → ∃ call ret cx held,
    (polls s.trace).getLast? = some (call, ret) ∧ ret.isPending = true ∧ call.waker? = some cx ∧
      s.waiters.slot call.op = some held ∧ (held = cx ∨ Waker.willWake held cx = true)

omit [Target] in
theorem Waiting.of_empty (h : ∀ op, s.waiters.slot op = none) : Waiting s :=
  ⟨fun hne => absurd (h _) hne, fun hne => absurd (h _) hne, fun hne => absurd (h _) hne,
    fun _ => h, fun op hne => absurd (h op) hne⟩

omit [Target] in
theorem Waiting.due (h : Waiting s) {op : Op} (hne : s.waiters.slot op ≠ none) :
    s.due false op = false := by
  cases op with
  | read => simp [Reliable.due, h.read hne]
  | write => simp [Reliable.due, h.write hne]
  | flush => simp [Reliable.due, h.flush hne]
  | progress => rfl

/-- What a call that adds `events` to the trace does to the waiters. -/
structure Wakeups (s : Reliable T C W E N) (call : Call W) (ret : Return E)
    (events : List (Event W E)) (s' : Reliable T C W E N) : Prop where
  /-- A stored waiter stays, is woken once, or belongs to the operation of the call. -/
  kept : ∀ {op waker}, s.waiters.slot op = some waker →
    s'.waiters.slot op = some waker ∧ woken op events = [] ∨
      op ≠ call.op ∧ s'.waiters.slot op = none ∧ woken op events = [waker] ∨
      op = call.op ∧ woken op events = [] ∧
        s'.waiters.slot op = if ret.isPending then call.waker? else none
  absent : ∀ {op}, s.waiters.slot op = none → woken op events = []
  quiet : ret.isPending = true → .stepped (.ok .progress) ∉ events →
    .stepped (.ok .yield) ∉ events → ∀ event ∈ events, event.wakes = false
  cancelled : ∀ {operation}, call = .cancel operation →
    s' = { s with waiters := .default, trace := s.trace ++ events } ∧
      ∀ op, woken op events = if op = operation.op then [] else (s.waiters.slot op).toList

omit [Target] [Waker W] in
theorem Wakeups.returned {call : Call W} {ret : Return E} {events : List (Event W E)}
    (h : Wakeups s call ret events s') :
    Wakeups s call ret (events ++ [.returned call ret]) (s'.log (.returned call ret)) := by
  have hwoken : ∀ op, woken op (events ++ [.returned call ret]) = woken op events := by simp
  refine ⟨fun hslot => ?_, fun hslot => ?_, fun hpending hprogress hyield => ?_, fun hcancel => ?_⟩
  · rw [hwoken]
    exact h.kept hslot
  · rw [hwoken]
    exact h.absent hslot
  · refine List.forall_mem_append.mpr ⟨h.quiet hpending ?_ ?_, List.forall_mem_singleton.mpr rfl⟩
    · exact fun hmem => hprogress (List.mem_append_left _ hmem)
    · exact fun hmem => hyield (List.mem_append_left _ hmem)
  · obtain ⟨heq, hall⟩ := h.cancelled hcancel
    exact ⟨by rw [heq, log, List.append_assoc], fun op => (hwoken op).trans (hall op)⟩

/-- After a call the stored waiters wait again. -/
theorem Waiting.dispatch (hN : Fits N) (hinv : Inv s) (h : Waiting s) {call : Call W}
    {ret : Return E} (hcall : Dispatch s call ret s') : Waiting (s'.log (.returned call ret)) := by
  cases hret : ret.isPending with
  | false =>
      obtain ⟨hdrives, rfl⟩ | ⟨s₁, -, rfl⟩ := hcall.completed hN hinv hret
      · refine ⟨h.read, h.write, h.flush, h.failed, fun op hne => ?_⟩
        obtain ⟨last, ret', cx, held, hlast, hpending, hcx, hslot⟩ := h.last op hne
        refine ⟨last, ret', cx, held, ?_, hpending, hcx, hslot⟩
        simp [polls_returned, hdrives, hlast]
      · obtain ⟨wakes, heq, -⟩ := handOver_eq s₁ call.op
        rw [heq]
        exact .of_empty fun _ => rfl
  | true =>
      obtain ⟨cx, work, budget, s₁, hcx, hdrive, hhealth, hdue, rfl⟩ := hcall.pending hret
      rw [finish_pending _ _ _ hhealth]
      -- whoever is still stored waits for a condition that does not hold
      have hrest : ∀ op, (s₁.wait call.op cx).waiters.slot op ≠ none → s₁.due false op = false := by
        intro op hne
        by_cases hop : op = call.op
        · rw [hop, hdue]
        · rw [slot_wait _ _ hop] at hne
          by_contra hnot
          simp [hnot] at hne
      have hstart := (hinv.moves hN (hdrive.moves hinv)).rxStart_le
      refine ⟨fun hne => ?_, fun hne => hrest .write hne, fun hne => hrest .flush hne,
        fun hfailed => absurd hhealth hfailed, fun op _ => ?_⟩
      · have hread := hrest .read hne
        simp only [Reliable.due, Bool.false_or, decide_eq_false_iff_not, Nat.not_lt] at hread
        exact Nat.le_antisymm hstart hread
      · obtain ⟨held, hheld, hsame⟩ := slot_register_self s₁.waiters call.op cx
        refine ⟨call, ret, cx, held, ?_, hret, hcx, (slot_wait_self s₁ call.op cx).trans hheld,
          hsame.imp_right And.right⟩
        simp [polls_returned, hcall.drives hret]

/-- A cancellation wakes everyone else once, and does nothing more. -/
theorem Dispatch.cancelled {operation : PendingOperation} {ret : Return E}
    (hcall : Dispatch s (.cancel operation) ret s') {events : List (Event W E)}
    (htrace : s'.trace = s.trace ++ events) :
    s' = { s with waiters := .default, trace := s.trace ++ events } ∧
      ∀ op, woken op events = if op = operation.op then [] else (s.waiters.slot op).toList := by
  cases hcall
  rw [cancelPending_handOver] at htrace ⊢
  obtain ⟨wakes, heq, hwoken⟩ := handOver_eq s operation.op
  rw [heq] at htrace ⊢
  obtain rfl := List.append_cancel_left htrace
  exact ⟨rfl, hwoken⟩

/-- What a call does to the waiters. -/
theorem Dispatch.waiters (hN : Fits N) (hinv : Inv s) (h : Waiting s) {call : Call W}
    {ret : Return E} (hcall : Dispatch s call ret s') :
    ∃ events, s'.trace = s.trace ++ events ∧ Wakeups s call ret events s' := by
  have hcancelled : ∀ {events}, s'.trace = s.trace ++ events → ∀ {operation},
      call = .cancel operation →
        s' = { s with waiters := .default, trace := s.trace ++ events } ∧
          ∀ op, woken op events = if op = operation.op then [] else (s.waiters.slot op).toList := by
    rintro events htrace operation rfl
    exact hcall.cancelled htrace
  cases hret : ret.isPending with
  | false =>
      obtain ⟨-, rfl⟩ | ⟨s₁, hbefore, rfl⟩ := hcall.completed hN hinv hret
      · have htrace : s'.trace = s'.trace ++ [] := (List.append_nil _).symm
        exact ⟨[], htrace, fun hslot => .inl ⟨hslot, rfl⟩, fun _ => rfl, by simp [hret],
          hcancelled htrace⟩
      · obtain ⟨events, htrace, hduring⟩ := hbefore.adds
        obtain ⟨wakes, heq, hwoken⟩ := handOver_eq s₁ call.op
        have hall : ∀ op, woken op (events ++ wakes) =
            if op = call.op then [] else (s.waiters.slot op).toList := fun op => by
          rw [woken_append, woken_during hduring, hwoken, hbefore.waiters, List.nil_append]
        have htrace' : (s₁.handOver call.op).trace = s.trace ++ (events ++ wakes) := by
          rw [heq, htrace, List.append_assoc]
        refine ⟨events ++ wakes, htrace', fun {op waker} hslot => ?_, fun {op} hslot => ?_,
          by simp [hret], hcancelled htrace'⟩
        · have hnone : (s₁.handOver call.op).waiters.slot op = none := by rw [heq]; rfl
          by_cases hop : op = call.op
          · exact .inr (.inr ⟨hop, by rw [hall, if_pos hop], by simp [hret, hnone]⟩)
          · exact .inr (.inl ⟨hop, hnone, by rw [hall, if_neg hop, hslot, Option.toList_some]⟩)
        · rw [hall, hslot, Option.toList_none, ite_self]
  | true =>
      obtain ⟨cx, work, budget, s₁, hcx, hdrive, hhealth, hdue, rfl⟩ := hcall.pending hret
      have hbefore := hdrive.undisturbed hinv
      obtain ⟨events, htrace, hduring⟩ := hbefore.adds
      obtain ⟨wakes, hwakes, hwoken, hnobody⟩ := wait_trace s₁ call.op cx
      rw [finish_pending _ _ _ hhealth] at hcancelled ⊢
      have htrace' : (s₁.wait call.op cx).trace = s.trace ++ (events ++ wakes) := by
        rw [hwakes, htrace, List.append_assoc]
      have hall : ∀ op, woken op (events ++ wakes) =
          if op ≠ call.op ∧ s₁.due false op = true then (s.waiters.slot op).toList else [] :=
        fun op => by
          rw [woken_append, woken_during hduring, hwoken, hbefore.waiters, List.nil_append]
      refine ⟨events ++ wakes, htrace', fun {op waker} hslot => ?_, fun {op} hslot => ?_,
        fun _ hprogress hyield => ?_, hcancelled htrace'⟩
      · by_cases hop : op = call.op
        · subst hop
          obtain ⟨held, hheld, hsame⟩ := slot_register_self s₁.waiters call.op cx
          have hself := (slot_wait_self s₁ call.op cx).trans hheld
          have hnone : woken call.op (events ++ wakes) = [] := by
            rw [hall, if_neg fun hne => hne.1 rfl]
          obtain rfl | ⟨hold, -⟩ := hsame
          · exact .inr (.inr ⟨rfl, hnone, by simpa [hret, hcx] using hself⟩)
          · rw [hbefore.waiters, hslot] at hold
            exact .inl ⟨hself.trans hold.symm, hnone⟩
        · have hslot' := slot_wait s₁ cx hop
          rw [hbefore.waiters, hslot] at hslot'
          cases hwake : s₁.due false op with
          | true =>
              refine .inr (.inl ⟨hop, by simp [hslot', hwake], ?_⟩)
              rw [hall, if_pos ⟨hop, hwake⟩, hslot, Option.toList_some]
          | false =>
              refine .inl ⟨by simp [hslot', hwake], ?_⟩
              rw [hall, if_neg (by simp [hwake])]
      · rw [hall, hslot, Option.toList_none, ite_self]
      · -- only a condition that came true would wake a waiter
        obtain ⟨hnone, hstill⟩ := hdrive.quiet hinv hhealth htrace
          (fun hmem => hprogress (List.mem_append_left _ hmem))
          (fun hmem => hyield (List.mem_append_left _ hmem))
        have hwakes : wakes = [] := hnobody fun op hop => by
          rw [hbefore.waiters]
          by_contra hne
          rw [hstill op (h.due hne)] at hop
          cases hop
        simpa [hwakes] using hnone

section Runs

variable [Transport T W E] [Timer C W]

theorem Waiting.next (hsound : Sound s) (h : Waiting s) (hnext : Next s s') : Waiting s' := by
  cases hnext with
  | call hcall =>
      obtain ⟨s₁, hdispatch, rfl⟩ := hsound.dispatch hcall
      exact h.dispatch hsound.fits hsound.inv hdispatch
  | environment => exact ⟨h.read, h.write, h.flush, h.failed, h.last⟩

theorem Reachable.waiting (h : Reachable s) : Waiting s := by
  apply h.keep
  · exact fun _ _ _ => .of_empty fun _ => rfl
  · exact fun hsound hwaiting hnext => hwaiting.next hsound hnext

/-- No wakeup is lost between operations. -/
theorem Reachable.wakeups (h : Reachable s) :
    Waiting s ∧ ∀ {call : Call W} {ret : Return E} {s' : Reliable T C W E N},
      s.call call = some (ret, s') →
        ∃ events, s'.trace = s.trace ++ events ∧ Wakeups s call ret events s' := by
  refine ⟨h.waiting, fun {call ret s'} hcall => ?_⟩
  obtain ⟨s₁, hdispatch, rfl⟩ := h.sound.dispatch hcall
  obtain ⟨events, htrace, hwakeups⟩ := hdispatch.waiters h.sound.fits h.sound.inv h.waiting
  exact ⟨events ++ [Event.returned call ret], by simp [htrace], hwakeups.returned⟩

omit [Target] in
/-- A reader waits, whatever is called next. -/
theorem wakeups_reader : letI := target64
    ∃ s, (testConnection []).calls [.read 1 [0]] = some s ∧ s.waiters.slot .read = some 1 ∧
      Waiting s ∧ ∀ {call ret s'}, s.call call = some (ret, s') →
        ∃ events, s'.trace = s.trace ++ events ∧ Wakeups s call ret events s' := by
  let := target64
  obtain ⟨s, hs⟩ := Option.isSome_iff_exists.mp
    (show ((testConnection []).calls [.read 1 [0]]).isSome by decide +kernel)
  have hslot : ((testConnection []).calls [.read 1 [0]]).map (·.waiters.slot .read) =
      some (some 1) := by decide +kernel
  rw [hs] at hslot
  exact ⟨s, hs, Option.some.inj hslot, (reachable_testConnection hs).wakeups⟩

end Runs

end Reliable

end CobsIoAsync.Connection
