import CobsIoAsync.Connection.Total

/-!
# Connection.Calls — what a call can do

The ways through the public methods, and that a call of any of them returns in every state that a
run can reach.
-/

namespace CobsIoAsync.Connection.Reliable

open Reasoning Protocol

variable {T C W E : Type} {N : Nat} {s s' : Reliable T C W E N}

/-- The check for the end of the sequence numbers in `queue_packet`. -/
def exhaust (s : Reliable T C W E N) : Reliable T C W E N :=
  if s.writeReady && s.txNext > u32Max then (s.log .exhausted).fail .sequenceExhausted else s

theorem ite_exhaust (s : Reliable T C W E N) :
    (if s.writeReady && s.txNext > u32Max then (s.log .exhausted).fail .sequenceExhausted else s) =
      s.exhaust := rfl

/-- `queue_packet`. -/
inductive QueuePacket [Target] (s : Reliable T C W E N) (cx : W) (buf : List UInt8) :
    Poll (Except (ConnectionError E) Nat) → Reliable T C W E N → Prop
  | failed {work : Work} {budget : Budget} {s₁ s₂ : Reliable T C W E N} {error : ConnectionError E}
      (hdrive : Drive s cx .new work budget s₁)
      (hfailure : s₁.exhaust.failure = (some error, s₂)) :
      QueuePacket s cx buf (.ready (.error error)) s₂
  | busy {work : Work} {budget : Budget} {s₁ : Reliable T C W E N}
      (hdrive : Drive s cx .new work budget s₁) (hhealth : s₁.health = .ok)
      (hbusy : s₁.writeReady = false) : QueuePacket s cx buf .pending s₁
  | accepted {work : Work} {budget : Budget} {s₁ s₂ s' : Reliable T C W E N} {payload : List UInt8}
      {scratch txFrame : Bytes N} {txLen : Nat}
      (hdrive : Drive s cx .new work budget s₁) (hhealth : s₁.health = .ok)
      (hready : s₁.writeReady = true) (hnext : s₁.txNext ≤ u32Max)
      (hpayload : payload = buf.take (maxPayload N))
      (hlen : txLen =
        (Packet.data s₁.config.session (UInt32.ofNat s₁.txNext) payload).frame.length)
      (hframe : txFrame.toList.take txLen =
        (Packet.data s₁.config.session (UInt32.ofNat s₁.txNext) payload).frame)
      (hqueued : s₂ = { s₁ with
        scratch, txFrame, txLen, txNext := s₁.txNext + 1, txRetries := 0, tx := .queued }.log
          (.queued (UInt32.ofNat s₁.txNext) payload))
      (hsecond : work = .yield ∧ s' = s₂ ∨
        work ≠ .yield ∧ ∃ work' budget', Drive s₂ cx budget work' budget' s') :
      QueuePacket s cx buf (.ready (.ok payload.length)) s'

/-- A call of a public method. -/
inductive Dispatch [Target] [Waker W]
    (s : Reliable T C W E N) : Call W → Return E → Reliable T C W E N → Prop
  | readEmpty (cx : W) : Dispatch s (.read cx []) (.read (.ready (.ok 0)) []) s
  | readData (cx : W) {buf bytes : List UInt8} {work : Work} {budget : Budget} {len : Nat}
      {s₁ : Reliable T C W E N} (hne : buf ≠ []) (hdrive : Drive s cx .new work budget s₁)
      (hdata : s₁.rxStart < s₁.rxEnd) (hlen : len = min buf.length (s₁.rxEnd - s₁.rxStart))
      (hbytes : bytes = (s₁.rxPayload.toList.take (s₁.rxStart + len)).drop s₁.rxStart) :
      Dispatch s (.read cx buf) (.read (.ready (.ok len)) (bytes ++ buf.drop len))
        (({ s₁ with rxStart := s₁.rxStart + len }.log (.delivered bytes)).finish .read cx
          (.ready (.ok len : Except (ConnectionError E) Nat)))
  | readError (cx : W) {buf : List UInt8} {work : Work} {budget : Budget}
      {s₁ s₂ : Reliable T C W E N} {error : ConnectionError E} (hne : buf ≠ [])
      (hdrive : Drive s cx .new work budget s₁) (hdata : s₁.rxEnd ≤ s₁.rxStart)
      (hfailure : s₁.failure = (some error, s₂)) :
      Dispatch s (.read cx buf) (.read (.ready (.error error)) buf)
        (s₂.finish .read cx (.ready (.error error : Except (ConnectionError E) Nat)))
  | readPending (cx : W) {buf : List UInt8} {work : Work} {budget : Budget}
      {s₁ : Reliable T C W E N} (hne : buf ≠ []) (hdrive : Drive s cx .new work budget s₁)
      (hdata : s₁.rxEnd ≤ s₁.rxStart) (hhealth : s₁.health = .ok) :
      Dispatch s (.read cx buf) (.read .pending buf)
        (s₁.finish .read cx (.pending : Poll (Except (ConnectionError E) Nat)))
  | writeEmpty (cx : W) : Dispatch s (.write cx []) (.write (.ready (.ok 0))) s
  | write (cx : W) {buf : List UInt8} {poll : Poll (Except (ConnectionError E) Nat)}
      {s₁ : Reliable T C W E N} (hne : buf ≠ []) (hqueue : QueuePacket s cx buf poll s₁) :
      Dispatch s (.write cx buf) (.write poll) (s₁.finish .write cx poll)
  | flushError (cx : W) {work : Work} {budget : Budget} {s₁ s₂ : Reliable T C W E N}
      {error : ConnectionError E} (hdrive : Drive s cx .new work budget s₁)
      (hfailure : s₁.failure = (some error, s₂)) :
      Dispatch s (.flush cx) (.flush (.ready (.error error)))
        (s₂.finish .flush cx (.ready (.error error : Except (ConnectionError E) Unit)))
  | flushReady (cx : W) {work : Work} {budget : Budget} {s₁ : Reliable T C W E N}
      (hdrive : Drive s cx .new work budget s₁) (hhealth : s₁.health = .ok)
      (hready : s₁.flushReady = true) :
      Dispatch s (.flush cx) (.flush (.ready (.ok ())))
        (s₁.finish .flush cx (.ready (.ok () : Except (ConnectionError E) Unit)))
  | flushPending (cx : W) {work : Work} {budget : Budget} {s₁ : Reliable T C W E N}
      (hdrive : Drive s cx .new work budget s₁) (hhealth : s₁.health = .ok)
      (hready : s₁.flushReady = false) :
      Dispatch s (.flush cx) (.flush .pending)
        (s₁.finish .flush cx (.pending : Poll (Except (ConnectionError E) Unit)))
  | progressError (cx : W) {work : Work} {budget : Budget} {s₁ s₂ : Reliable T C W E N}
      {error : ConnectionError E} (hdrive : Drive s cx .new work budget s₁)
      (hfailure : s₁.failure = (some error, s₂)) :
      Dispatch s (.progress cx) (.progress (.ready error))
        (s₂.finish .progress cx (.ready error))
  | progressPending (cx : W) {work : Work} {budget : Budget} {s₁ : Reliable T C W E N}
      (hdrive : Drive s cx .new work budget s₁) (hhealth : s₁.health = .ok) :
      Dispatch s (.progress cx) (.progress .pending)
        (s₁.finish .progress cx (.pending : Poll (ConnectionError E)))
  | cancel (operation : PendingOperation) :
      Dispatch s (.cancel operation) .cancelled (s.cancelPending operation)

/-! ## Calls return -/

theorem failure_of_ok (h : s.health = .ok) : s.failure = (none, s) := by simp [failure, h]

theorem failure_of_ne (h : s.health ≠ .ok) : ∃ error s', s.failure = (some error, s') := by
  unfold failure
  split
  · exact absurd ‹_› h
  · exact ⟨_, _, rfl⟩
  · exact ⟨_, _, rfl⟩

theorem health_fail (s : Reliable T C W E N) (error : ConnectionError E) :
    (s.fail error).health ≠ .ok := by
  rw [fail_eq]
  simp only
  split <;> simp_all

/-- The check leaves the connection alone or fails it. -/
theorem exhaust_cases (s : Reliable T C W E N) :
    (s.exhaust = s ∧ (s.writeReady = true → s.txNext ≤ u32Max)) ∨
      (s.exhaust = (s.log .exhausted).fail .sequenceExhausted ∧ s.exhaust.health ≠ .ok) := by
  unfold exhaust
  split
  · exact .inr ⟨rfl, health_fail _ _⟩
  · rename_i h
    exact .inl ⟨rfl, fun hready => by simpa [hready] using h⟩

/-- What `queue_packet` does to an idle connection. -/
theorem moves_queued [Target] (hready : s.writeReady = true) (hnext : s.txNext ≤ u32Max)
    {payload : List UInt8} (hne : payload ≠ []) (hpayload : payload.length ≤ maxPayload N)
    (scratch : Bytes N) {txFrame : Bytes N} {txLen : Nat}
    (hlen : txLen = (Packet.data s.config.session (UInt32.ofNat s.txNext) payload).frame.length)
    (hframe : txFrame.toList.take txLen =
      (Packet.data s.config.session (UInt32.ofNat s.txNext) payload).frame) :
    Moves s ({ s with
      scratch, txFrame, txLen, txNext := s.txNext + 1, txRetries := 0, tx := .queued }.log
        (.queued (UInt32.ofNat s.txNext) payload)) :=
  (Turns.scratch s scratch).moves.tail
    (.queue _ payload txFrame txLen hready hnext hne hpayload hlen hframe)

theorem take_maxPayload [Target] (hN : Fits N) {buf : List UInt8} (hne : buf ≠ []) :
    buf.take (maxPayload N) ≠ [] ∧ (buf.take (maxPayload N)).length ≤ maxPayload N := by
  have hpos := hN.maxPayload_pos
  refine ⟨?_, by simp⟩
  simp only [ne_eq, List.take_eq_nil_iff, not_or]
  exact ⟨by omega, hne⟩

/-- The buffers of the connection hold every packet that it accepts. -/
theorem encodeData_fits [Target] (hN : Fits N) (session : UInt64) (seq : UInt32)
    {payload : List UInt8}
    (hpayload : payload.length ≤ maxPayload N) (scratch frame : Bytes N) :
    Returns (encodeData session seq payload scratch frame) fun r =>
      r.1 = (Packet.data session seq payload).frame.length ∧
        r.2.2.toList.take r.1 = (Packet.data session seq payload).frame := by
  have hroom := hN.maxPayload_le
  have hfits := length_data_frame_le hN.maxPayload_eq hN.maxPayload_pos session seq hpayload
  refine (encodeData_returns session seq payload scratch frame (by omega) hfits).mono fun r hr => ?_
  obtain ⟨hlen, -, hframe⟩ := hr
  refine ⟨hlen, ?_⟩
  rw [hlen]
  exact hframe.take

section

variable [Target] [Transport T W E] [Timer C W]

/-- `queue_packet` returns. -/
theorem queuePacket_returns (hN : Fits N) (h : Inv s) (hsettled : Settled s) (cx : W)
    {buf : List UInt8} (hne : buf ≠ []) :
    Returns (s.queuePacket cx buf) fun r => QueuePacket s cx buf r.1 r.2 := by
  unfold queuePacket
  refine (drive_returns hN h hsettled cx .new).bind fun r₁ h₁ => ?_
  obtain ⟨work, budget, s₁⟩ := r₁
  have hinv₁ := h.moves hN (h₁.moves h)
  have hsettled₁ := hsettled.receives h₁.receives
  simp only [Bool.not_not, ite_exhaust]
  by_cases hhealth : s₁.exhaust.health = .ok
  · obtain ⟨hsame, hnext⟩ | ⟨-, hfailed⟩ := exhaust_cases s₁
    · rw [failure_of_ok hhealth, hsame]
      rw [hsame] at hhealth
      dsimp only
      cases hready : s₁.writeReady with
      | false => exact .ret (.busy h₁ hhealth hready)
      | true =>
          have hnext := hnext hready
          obtain ⟨hpne, hple⟩ := take_maxPayload hN hne
          refine (slice_zero_returns (Nat.min_le_left _ _)).bind fun payload hpayload => ?_
          rw [Nat.min_comm, ← List.take_eq_take_min] at hpayload
          rw [← hpayload] at hpne hple
          refine (encodeData_fits hN s₁.config.session (UInt32.ofNat s₁.txNext) hple s₁.scratch
            s₁.txFrame).bind fun encoded hencode => ?_
          obtain ⟨txLen, scratch, txFrame⟩ := encoded
          obtain ⟨hlen, hframe⟩ := hencode
          refine (checkedAdd_returns (show s₁.txNext + 1 ≤ u64Max by
            simp only [u32Max, u64Max] at *; omega)).bind fun txNext htxNext => ?_
          subst htxNext
          have hlength : payload.length = min buf.length (maxPayload N) := by
            rw [hpayload, List.length_take, Nat.min_comm]
          rw [← hlength]
          -- The second drive starts from the state the packet was queued in.
          have hmoves := moves_queued hready hnext hpne hple scratch hlen hframe
          split
          · rename_i hyield
            refine (drive_returns hN (hinv₁.moves hN hmoves)
              (hsettled₁.of_sameInput (.of_trace rfl rfl rfl rfl rfl rfl)) cx budget).bind
              fun r₂ h₂ => ?_
            obtain ⟨work', budget', s'⟩ := r₂
            exact .ret (.accepted h₁ hhealth hready hnext hpayload hlen hframe rfl
              (.inr ⟨hyield, work', budget', h₂⟩))
          · rename_i hyield
            exact .ret (.accepted h₁ hhealth hready hnext hpayload hlen hframe rfl
              (.inl ⟨by simpa using hyield, rfl⟩))
    · exact absurd hhealth hfailed
  · obtain ⟨error, s₂, hfailure⟩ := failure_of_ne hhealth
    simp only [hfailure]
    exact .ret (.failed h₁ hfailure)

variable [Waker W]

/-- `poll_read` returns. -/
theorem pollRead_returns (hN : Fits N) (h : Inv s) (hsettled : Settled s) (cx : W)
    {buf : List UInt8} (hne : buf ≠ []) :
    Returns (s.pollRead cx (⟨buf, rfl⟩ : Bytes buf.length)) fun r =>
      Dispatch s (.read cx buf) (.read r.1 r.2.1.toList) r.2.2 := by
  unfold pollRead
  rw [if_neg (by simpa using hne)]
  refine (drive_returns hN h hsettled cx .new).bind fun r₁ h₁ => ?_
  obtain ⟨work, budget, s₁⟩ := r₁
  have hinv₁ := h.moves hN (h₁.moves h)
  have hstart := hinv₁.rxStart_le
  have hend := hinv₁.rxEnd_le
  have hroom := hN.room
  have hmax := hN.maxPayload_le
  dsimp only at *
  split
  · rename_i hdata
    refine (checkedAdd_returns (by omega)).bind fun stop hstop => ?_
    subst hstop
    refine (slice_returns (by omega) (by simp; omega)).bind fun bytes hbytes => ?_
    refine (Bytes.copyFromSlice_zero ⟨buf, rfl⟩ (by omega) ?_).bind fun buf' hbuf' => ?_
    · simp [hbytes]
      omega
    · refine .ret ?_
      dsimp only
      rw [hbuf']
      exact .readData cx hne h₁ hdata rfl hbytes
  · rename_i hdata
    have hdata : s₁.rxEnd ≤ s₁.rxStart := Nat.not_lt.mp hdata
    -- A failure is reported only once there is nothing left to read.
    by_cases hhealth : s₁.health = .ok
    · rw [failure_of_ok hhealth]
      exact .ret (.readPending cx hne h₁ hdata hhealth)
    · obtain ⟨error, s₂, hfailure⟩ := failure_of_ne hhealth
      simp only [hfailure]
      exact .ret (.readError cx hne h₁ hdata hfailure)

/-- `poll_write` returns. -/
theorem pollWrite_returns (hN : Fits N) (h : Inv s) (hsettled : Settled s) (cx : W)
    {buf : List UInt8} (hne : buf ≠ []) :
    Returns (s.pollWrite cx buf) fun r => Dispatch s (.write cx buf) (.write r.1) r.2 := by
  unfold pollWrite
  rw [if_neg hne]
  exact (queuePacket_returns hN h hsettled cx hne).bind fun r hr => .ret (.write cx hne hr)

/-- `poll_flush` returns. -/
theorem pollFlush_returns (hN : Fits N) (h : Inv s) (hsettled : Settled s) (cx : W) :
    Returns (s.pollFlush cx) fun r => Dispatch s (.flush cx) (.flush r.1) r.2 := by
  unfold pollFlush
  refine (drive_returns hN h hsettled cx .new).bind fun r₁ h₁ => ?_
  obtain ⟨work, budget, s₁⟩ := r₁
  dsimp only
  by_cases hhealth : s₁.health = .ok
  · rw [failure_of_ok hhealth]
    dsimp only
    cases hready : s₁.flushReady with
    | true => exact .ret (.flushReady cx h₁ hhealth hready)
    | false => exact .ret (.flushPending cx h₁ hhealth hready)
  · obtain ⟨error, s₂, hfailure⟩ := failure_of_ne hhealth
    simp only [hfailure]
    exact .ret (.flushError cx h₁ hfailure)

/-- `poll_progress` returns. -/
theorem pollProgress_returns (hN : Fits N) (h : Inv s) (hsettled : Settled s) (cx : W) :
    Returns (s.pollProgress cx) fun r => Dispatch s (.progress cx) (.progress r.1) r.2 := by
  unfold pollProgress
  refine (drive_returns hN h hsettled cx .new).bind fun r₁ h₁ => ?_
  obtain ⟨work, budget, s₁⟩ := r₁
  dsimp only
  by_cases hhealth : s₁.health = .ok
  · rw [failure_of_ok hhealth]
    exact .ret (.progressPending cx h₁ hhealth)
  · obtain ⟨error, s₂, hfailure⟩ := failure_of_ne hhealth
    simp only [hfailure]
    exact .ret (.progressError cx h₁ hfailure)

/-- Every public method returns. -/
theorem dispatch_returns (hN : Fits N) (h : Inv s) (hsettled : Settled s) (call : Call W) :
    Returns (s.dispatch call) fun r => Dispatch s call r.1 r.2 := by
  cases call with
  | read cx buf =>
      by_cases hne : buf = []
      · subst hne
        exact .ret (.readEmpty cx)
      · exact (pollRead_returns hN h hsettled cx hne).bind fun r hr => .ret hr
  | write cx buf =>
      by_cases hne : buf = []
      · subst hne
        exact .ret (.writeEmpty cx)
      · exact (pollWrite_returns hN h hsettled cx hne).bind fun r hr => .ret hr
  | flush cx => exact (pollFlush_returns hN h hsettled cx).bind fun r hr => .ret hr
  | progress cx => exact (pollProgress_returns hN h hsettled cx).bind fun r hr => .ret hr
  | cancel operation => exact .ret (.cancel operation)

end

/-! ## Waking -/

/-- The waiters of the operations in `p` are taken and woken. -/
def wakeWhere (p : Op → Bool) (s : Reliable T C W E N) : Reliable T C W E N :=
  { s with
    waiters := ⟨fun op => if p op then none else s.waiters.slot op⟩
    trace := s.trace ++ ops.filterMap fun op =>
      if p op then (s.waiters.slot op).map (.wake op) else none }

/-- Waking one operation, if it is in `p`. -/
theorem wake_eq (p : Op → Bool) (s : Reliable T C W E N) (op : Op) :
    (if p op then s.wake op else s) =
      { s with
        waiters := ⟨fun o => if o = op ∧ p op then none else s.waiters.slot o⟩
        trace := s.trace ++
          (if p op then (s.waiters.slot op).map (Event.wake op) else none).toList } := by
  cases hp : p op with
  | false => simp
  | true =>
      cases hslot : s.waiters.slot op with
      | none =>
          have hsame : (fun o => if o = op then none else s.waiters.slot o) = s.waiters.slot := by
            funext o
            split
            · rename_i ho
              rw [ho, hslot]
            · rfl
          simp [wake, hslot, hsame]
      | some waker =>
          have hclear : s.waiters.clear op = ⟨fun o => if o = op then none else s.waiters.slot o⟩ := by
            simp only [Waiters.clear, Waiters.setSlot, Waiters.mk.injEq]
            funext o
            simp [Function.update_apply]
          simp [wake, hslot, hclear, log]

/-- Waking one operation after the other. -/
theorem foldl_wake (p : Op → Bool) (l : List Op) (hl : l.Nodup) (s : Reliable T C W E N) :
    l.foldl (fun s op => if p op then s.wake op else s) s =
      { s with
        waiters := ⟨fun op => if op ∈ l ∧ p op then none else s.waiters.slot op⟩
        trace := s.trace ++ l.filterMap fun op =>
          if p op then (s.waiters.slot op).map (.wake op) else none } := by
  induction l generalizing s with
  | nil => simp
  | cons op l ih =>
      obtain ⟨hnotMem, hl⟩ := List.nodup_cons.mp hl
      rw [List.foldl_cons, ih hl, wake_eq]
      -- Each operation is visited once, so a slot emptied here is not looked at again.
      have hslots : (fun o => if o ∈ l ∧ p o then none
          else if o = op ∧ p op then none else s.waiters.slot o) =
            fun o => if o ∈ op :: l ∧ p o then none else s.waiters.slot o := by
        funext o
        by_cases ho : o = op
        · subst ho
          simp [hnotMem]
        · simp [ho]
      have hwakes : (l.filterMap fun o => if p o then
          (if o = op ∧ p op then none else s.waiters.slot o).map (Event.wake (E := E) o) else none) =
            l.filterMap fun o => if p o then (s.waiters.slot o).map (.wake o) else none := by
        refine List.filterMap_congr fun o ho => ?_
        rw [if_neg (fun h : o = op ∧ p op => hnotMem (h.1 ▸ ho))]
      simp only [hslots, hwakes, List.filterMap_cons, List.append_assoc]
      congr 1
      cases (if p op then (s.waiters.slot op).map (Event.wake (E := E) op) else none) <;> rfl

theorem wakeAll_eq (p : Op → Bool) (s : Reliable T C W E N) :
    ops.foldl (fun s op => if p op then s.wake op else s) s = s.wakeWhere p := by
  have hall : ∀ op, op ∈ ops := fun op => by cases op <;> decide
  rw [foldl_wake p ops (by decide) s, wakeWhere]
  simp [hall]

/-- Whom `notify` wakes is decided before it wakes the first one. -/
theorem notify_eq (s : Reliable T C W E N) (done : Op) (completed : Bool) :
    s.notify done completed = s.wakeWhere fun op =>
      op ≠ done && s.due (completed || match s.health with | .ok => false | _ => true) op := by
  -- Waking one operation changes nothing that decides whether another is due.
  have hwake : ∀ (s : Reliable T C W E N) (op o : Op) (everyone : Bool),
      (s.wake op).due everyone o = s.due everyone o := by
    intro s op o everyone
    unfold wake
    split <;> rfl
  have hfold : ∀ (everyone : Bool) (p : Op → Bool) (l : List Op) (s : Reliable T C W E N),
      (∀ op, p op = (op ≠ done && s.due everyone op)) →
      l.foldl (fun s op => if op ≠ done ∧ s.due everyone op then s.wake op else s) s =
        l.foldl (fun s op => if p op then s.wake op else s) s := by
    intro everyone p l
    induction l with
    | nil => intros; rfl
    | cons op l ih =>
        intro s hp
        have hhead : (if op ≠ done ∧ s.due everyone op then s.wake op else s) =
            if p op then s.wake op else s := by simp [hp]
        simp only [List.foldl_cons, hhead]
        refine ih _ fun o => ?_
        split
        · rw [hwake, hp]
        · exact hp o
  rw [← wakeAll_eq]
  exact hfold _ _ _ s fun _ => rfl

theorem cancelPending_eq (s : Reliable T C W E N) (operation : PendingOperation) :
    s.cancelPending operation =
      { s with waiters := s.waiters.clear operation.op }.wakeWhere (· ≠ operation.op) := by
  rw [← wakeAll_eq]
  simp [cancelPending]

end CobsIoAsync.Connection.Reliable
