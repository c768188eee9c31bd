import CobsIoAsync.Connection.Behaviour

/-!
# Connection.Total — the functions never panic

From a state within the invariant every function returns, and what it returns is in the relation
of the function.
-/

namespace CobsIoAsync.Connection.Reliable

open Reasoning Protocol

variable {T C W E : Type} {N : Nat} {s s' : Reliable T C W E N}

theorem Fits.maxPayload_le [Target] (hN : Fits N) : overhead + maxPayload N ≤ N :=
  Protocol.maxPayload_le hN.maxPayload_eq hN.maxPayload_pos

theorem spend_eq (budget : Budget) :
    (budget.left = 0 ∧ budget.spend = (false, budget)) ∨
      ∃ left, budget.left = left + 1 ∧ budget.spend = (true, ⟨left⟩) := by
  obtain ⟨_ | left⟩ := budget
  · exact .inl ⟨rfl, rfl⟩
  · exact .inr ⟨left, rfl, rfl⟩

/-! ## Output -/

/-- What the opening `if` of `poll_output` leaves. -/
theorem startOutput_returns (s : Reliable T C W E N) :
    Returns s.startOutput fun r => match r with
      | none => s.out = .idle ∧ s.ackPending = none ∧ s.tx ≠ .queued
      | some s' => Start s s' ∧ s'.out ≠ .idle := by
  unfold startOutput
  split
  · rename_i hout
    split
    · rename_i seq hack
      refine (encodeAck_returns s.config.session seq s.ackFrame).bind fun r hr => ?_
      obtain ⟨len, frame⟩ := r
      obtain ⟨rfl, hframe⟩ := hr
      refine .ret ⟨?_, by simp [log]⟩
      have hbytes := hframe.take
      convert Start.ack (s := s) seq frame _ hout hack rfl hbytes using 3
      exact hbytes
    · rename_i hack
      split
      · rename_i htx
        exact .ret ⟨.data hout hack htx, by simp [log]⟩
      · rename_i htx
        exact .ret ⟨hout, hack, htx⟩
  · rename_i hout
    exact .ret ⟨.going hout, hout⟩

section Transport

variable [Target] [Transport T W E]

/-- The `Writing` arm writes the rest of the frame. -/
theorem writeFrame_returns (hN : Fits N) (h : Inv s) (cx : W) {frame : Frame} {offset : Nat}
    (hout : s.out = .writing frame offset) :
    Returns (s.writeFrame cx frame offset) fun r => WriteFrame s cx frame offset r.1 r.2 := by
  have hlt := h.offset_lt hout
  have hlen := length_frameBytes h frame
  have hbuffer : (s.frameBuffer frame).2 ≤ (s.frameBuffer frame).1.length ∧
      (s.frameBuffer frame).2 ≤ Target.usizeMax := by
    have hroom := hN.room
    cases frame with
    | ack => simpa [frameBuffer] using ⟨h.ackLen_le, h.ackLen_le.trans (by omega)⟩
    | data => simpa [frameBuffer] using ⟨h.txLen_le, h.txLen_le.trans (by omega)⟩
  have hslice : slice (s.frameBuffer frame).1 offset (s.frameBuffer frame).2 =
      some ((s.frameBytes frame).drop offset) := slice_eq hlt.le hbuffer.1
  unfold writeFrame
  simp only [hslice, bind, Option.bind_some]
  obtain ⟨transport, poll⟩ := Transport.pollWrite s.transport cx ((s.frameBytes frame).drop offset)
  cases poll with
  | pending => exact .ret (.pending transport)
  | ready result =>
      cases result with
      | error error => exact .ret (.error transport error)
      | ok written =>
          cases written with
          | zero => exact .ret (.zero transport)
          | succ written =>
              have hsum : offset + min (written + 1) ((s.frameBytes frame).drop offset).length ≤
                  Target.usizeMax := by
                rw [List.length_drop, hlen]
                omega
              refine (checkedAdd_returns hsum).bind fun stop hstop => ?_
              subst hstop
              refine .ret ?_
              have hwritten : WriteFrame s cx frame offset _ _ :=
                .written transport (written + 1) (Nat.succ_ne_zero _)
              rwa [advance, hlen] at hwritten

end Transport

section Timer

variable [Timer C W] [Transport T W E]

/-- The `Flushing` arm. -/
theorem flushFrame_mem (s : Reliable T C W E N) (cx : W) (frame : Frame) :
    FlushFrame s cx frame (s.flushFrame cx frame).1 (s.flushFrame cx frame).2 := by
  unfold flushFrame
  obtain ⟨transport, poll⟩ := Transport.pollFlush s.transport cx
  cases poll with
  | pending => exact .pending transport
  | ready result =>
      cases result with
      | error error => exact .error transport error
      | ok _ =>
          by_cases h : frame = .data ∧ s.tx = .sending
          · have hsent : FlushFrame s cx frame _ _ :=
              .sent transport (Timer.now W s.timer).1 (Timer.now W s.timer).2 h.1 h.2
            simpa [log, h] using hsent
          · have hflushed : FlushFrame s cx frame _ _ := .flushed transport h
            simpa [log, h] using hflushed

variable [Target]

/-- `poll_output` returns. -/
theorem pollOutput_returns (hN : Fits N) (h : Inv s) (cx : W) (budget : Budget) :
    Returns (s.pollOutput cx budget) fun r => Output s cx budget r.1 r.2.1 r.2.2 := by
  unfold pollOutput
  refine (startOutput_returns s).bind fun r hr => ?_
  cases r with
  | none => exact .ret (.nothing hr.1 hr.2.1 hr.2.2)
  | some s₁ =>
      obtain ⟨hstart, hbusy⟩ := hr
      have h₁ := h.turns hstart.turns
      obtain ⟨hleft, hspend⟩ | ⟨left, hleft, hspend⟩ := spend_eq budget
      · simp only [hspend]
        exact .ret (.starved hstart hleft)
      · simp only [hspend]
        cases hout : s₁.out with
        | idle => exact absurd hout hbusy
        | writing frame offset =>
            exact (writeFrame_returns hN h₁ cx hout).bind fun r hr =>
              .ret (.write hstart hleft hout hr)
        | flushing frame =>
            exact .ret (.flush hstart hleft hout (flushFrame_mem s₁ cx frame))

end Timer

/-! ## Input -/

variable [Target]

/-- A parsed packet takes effect. -/
theorem processPacket_returns (hN : Fits N) (s : Reliable T C W E N) (packet : Packet) :
    Returns (s.processPacket packet) (Take s packet) := by
  cases packet with
  | ack session seq =>
      rw [processPacket]
      split
      · rename_i h
        obtain ⟨rfl, htx, hseq⟩ := h
        exact .ret (.release seq htx hseq)
      · rename_i h
        exact .ret (.stale session seq h)
  | data session seq payload =>
      rw [processPacket]
      split
      · rename_i h
        exact .ret (.foreign session seq payload h)
      · rename_i h
        simp only [not_or, Decidable.not_not, Nat.not_lt, gt_iff_lt] at h
        obtain ⟨rfl, hlen⟩ := h
        split
        · rename_i hseq
          split
          · rename_i hempty
            have hroom := hN.maxPayload_le
            have hnext : s.rxNext + 1 ≤ u64Max := by
              have := toNat_le_u32Max seq
              simp only [u32Max, u64Max] at *
              omega
            refine (s.rxPayload.copyFromSlice_zero (by omega) rfl).bind fun rxPayload hpayload => ?_
            refine (checkedAdd_returns hnext).bind fun rxNext hrxNext => ?_
            subst hrxNext
            exact .ret (.retain seq payload rxPayload hlen hseq hempty hpayload)
          · rename_i hfull
            exact .ret (.full seq payload hlen hseq hfull)
        · rename_i hseq
          split
          · rename_i h
            exact .ret (.again seq payload hlen h.1 h.2.1 h.2.2)
          · rename_i h
            exact .ret (.unexpected seq payload hlen hseq h)

/-- `process_frame` returns. -/
theorem processFrame_returns (hN : Fits N) (s : Reliable T C W E N) {body : List UInt8}
    (hlen : body.length + 1 ≤ N)
    (hsource : s.rxBuf.toList.take (body.length + 1) = body ++ [0]) :
    Returns (s.processFrame body.length) (ProcessFrame s body) := by
  unfold processFrame
  refine (slice_zero_returns (by simpa using hlen)).bind fun source h => ?_
  subst h
  rw [hsource, List.take_left]
  dsimp only
  generalize hdecode : Sync.decodeToSlice (body ++ [0]) (s.log (.frame body)).scratch = r
  obtain ⟨error | decoded, scratch⟩ := r
  · exact .ret (.undecodable hdecode)
  · have hle : decoded.len ≤ N := Codec.decodeLoop_len_le (Nat.zero_le N) hdecode
    refine (slice_zero_returns (by simpa using hle)).bind fun packet h => ?_
    subst h
    obtain ⟨parsed, hparse, -⟩ := parse_returns (scratch.toList.take decoded.len)
    simp only [hparse, bind, Option.bind_some]
    cases parsed with
    | none => exact .ret (.unparsable hdecode hparse)
    | some packet =>
        exact (processPacket_returns hN _ packet).mono fun s' h => .parsed hdecode hparse h

omit [Target] in
/-- The first zero of a list splits it. -/
theorem split_at_zero {xs : List UInt8} {i : Nat} (h : xs.findIdx? (· == 0) = some i) :
    i < xs.length ∧ 0 ∉ xs.take i ∧ xs.take (i + 1) = xs.take i ++ [0] := by
  obtain ⟨hi, hzero, hbefore⟩ := List.findIdx?_eq_some_iff_getElem.mp h
  refine ⟨hi, ?_, ?_⟩
  · intro hmem
    obtain ⟨j, hj, hget⟩ := List.mem_iff_getElem.mp hmem
    have hji : j < i := by simpa using (List.length_take ▸ hj : j < min i xs.length).trans_le (Nat.min_le_left _ _)
    refine hbefore j hji ?_
    rw [List.getElem_take] at hget
    simp [hget]
  · rw [List.take_succ_eq_append_getElem hi, show xs[i] = 0 by simpa using hzero]

/-- The bytes in front of a delimiter are processed. -/
theorem processSegment_returns (hN : Fits N) (s : Reliable T C W E N) {segment : List UInt8}
    (hlen : segment.length + 1 ≤ N)
    (hsource : s.rxBuf.toList.take (segment.length + 1) = segment ++ [0]) :
    Returns (s.processSegment segment.length) (ProcessSegment s segment) := by
  unfold processSegment
  split
  · rename_i hdiscarding
    exact .ret (.resync hdiscarding)
  · rename_i hdiscarding
    simp only [Bool.not_eq_true] at hdiscarding
    split
    · rename_i hpos
      exact (processFrame_returns hN s hlen hsource).mono fun s' h =>
        .frame hdiscarding (List.ne_nil_of_length_pos hpos) h
    · rename_i hzero
      exact .ret (.skip hdiscarding (List.length_eq_zero_iff.mp (by omega)))

/-- The loop of `process_input` returns when its fuel exceeds the number of buffered bytes. -/
theorem processInputLoop_returns (hN : Fits N) {fuel : Nat} (hlen : s.rxLen ≤ N)
    (hfuel : s.rxLen < fuel) : Returns (processInputLoop fuel s) (ProcessInput s) := by
  induction fuel generalizing s with
  | zero => exact absurd hfuel (Nat.not_lt_zero _)
  | succ fuel ih =>
      rw [processInputLoop]
      refine (slice_zero_returns (by simpa using hlen)).bind fun seen h => ?_
      subst h
      have hlength := length_buffered hlen
      cases hfind : (s.rxBuf.toList.take s.rxLen).findIdx? (· == 0) with
      | none =>
          -- No delimiter: what is buffered is an unfinished segment, or too long for one.
          have hzero : 0 ∉ s.buffered := fun hmem => by
            simpa using List.findIdx?_eq_none_iff.mp hfind 0 hmem
          simp only
          split
          · rename_i h
            exact .ret (.overflow s hzero h)
          · rename_i h
            simp only [not_or, Bool.not_eq_true] at h
            exact .ret (.rest s hzero h.1 h.2)
      | some end_ =>
          obtain ⟨hend, hzero, htake⟩ := split_at_zero hfind
          change end_ < s.buffered.length at hend
          change 0 ∉ s.buffered.take end_ at hzero
          change s.buffered.take (end_ + 1) = s.buffered.take end_ ++ [0] at htake
          have hsplit : s.buffered = s.buffered.take end_ ++ 0 :: s.buffered.drop (end_ + 1) := by
            rw [← List.singleton_append, ← List.append_assoc, ← htake, List.take_append_drop]
          have hsegment : (s.buffered.take end_).length = end_ := by simp; omega
          have htail : (s.buffered.drop (end_ + 1)).length = s.rxLen - (end_ + 1) := by simp; omega
          have hsource : s.rxBuf.toList.take (end_ + 1) = s.buffered.take end_ ++ [0] := by
            rw [← htake, buffered, List.take_take, Nat.min_eq_left (by omega)]
          -- Each turn takes a segment and its delimiter away, so what is left is shorter.
          have hprocess : Returns (s.processSegment (s.buffered.take end_).length)
              (ProcessSegment s (s.buffered.take end_)) :=
            processSegment_returns hN s (by omega) (by rwa [hsegment])
          rw [hsegment] at hprocess
          refine hprocess.bind fun s₁ hs₁ => ?_
          obtain ⟨hbuf₁, hlen₁⟩ := hs₁.buffer
          have hroom := hN.room
          refine (checkedAdd_returns (show end_ + 1 ≤ Target.usizeMax by omega)).bind
            fun next hnext => ?_
          subst hnext
          refine (s₁.rxBuf.copyWithin_zero (show end_ + 1 ≤ s₁.rxLen by omega) (by omega)).bind
            fun rxBuf hrxBuf => ?_
          refine (checkedSub_returns (show end_ + 1 ≤ s₁.rxLen by omega)).bind fun rxLen hrxLen => ?_
          subst hrxLen
          have hmoved : rxBuf.toList.take (s.rxLen - (end_ + 1)) = s.buffered.drop (end_ + 1) := by
            rw [hrxBuf, hbuf₁, hlen₁]
            exact List.take_left' htail
          refine (ih (s := { s₁ with rxBuf, rxLen := s₁.rxLen - (end_ + 1) }) ?_ ?_).mono
            fun s' hs' => ?_
          · simp only
            omega
          · simp only
            omega
          · rw [hlen₁] at hs'
            exact .segment hsplit hzero (by rw [htail, hmoved]) hs₁ (by rwa [htail])

/-- `poll_input` returns. -/
theorem pollInput_returns [Transport T W E] (hN : Fits N) (hlen : s.rxLen ≤ N) (cx : W)
    (budget : Budget) : Returns (s.pollInput cx budget) fun r =>
      Input s cx budget r.1 r.2.1 r.2.2 := by
  unfold pollInput
  obtain ⟨hleft, hspend⟩ | ⟨left, hleft, hspend⟩ := spend_eq budget
  · simp only [hspend]
    exact .ret (.starved hleft)
  simp only [hspend]
  refine (slice_returns hlen (by simp)).bind fun _ _ => ?_
  obtain ⟨transport, free, poll⟩ := Transport.pollRead s.transport cx (s.rxBuf.dropFrom s.rxLen)
  have hbuf : (s.rxBuf.setFrom s.rxLen free).toList.take s.rxLen = s.buffered := by
    rw [Bytes.toList_setFrom, List.take_append_of_le_length (by simpa using hlen), List.take_take,
      Nat.min_self, buffered]
  cases poll with
  | pending => exact .ret (.pending transport _ hleft hbuf)
  | ready result =>
      cases result with
      | error error => exact .ret (.error transport _ error hleft hbuf)
      | ok count =>
          cases count with
          | zero =>
              refine .ret ?_
              have heof : Input s cx budget _ _ _ := .eof transport _ hleft hbuf
              simpa using heof
          | succ count =>
              have hroom := hN.room
              simp only
              generalize hk : min (count + 1) (N - s.rxLen) = k
              have hbytes : (free.toList.take k).length = k := by
                rw [List.length_take, Bytes.length_toList]
                omega
              -- The bytes read follow those buffered: nothing before `rx_len` is overwritten.
              have hread : (s.rxBuf.setFrom s.rxLen free).toList.take (s.rxLen + (free.toList.take k).length)
                  = s.buffered ++ free.toList.take k := by
                rw [hbytes, Bytes.toList_setFrom, List.take_append]
                simp only [List.length_take, Bytes.length_toList, buffered]
                rw [List.take_of_length_le (by simp), show s.rxLen + k - min s.rxLen N = k by omega]
              refine (checkedAdd_returns (show s.rxLen + k ≤ Target.usizeMax by omega)).bind
                fun rxLen hrxLen => ?_
              subst hrxLen
              refine (processInputLoop_returns hN ?_ (Nat.lt_succ_self _)).bind fun s' hs' => .ret ?_
              · simp only
                omega
              · refine .read transport _ (count + 1) (free.toList.take k) hleft (Nat.succ_ne_zero _)
                  (hbytes.trans hk.symm) hread ?_
                rw [hbytes]
                exact hs'

/-! ## Timer -/

omit [Target] in
/-- `poll_timer` returns. -/
theorem pollTimer_returns [Timer C W] (s : Reliable T C W E N) (cx : W) (input : Work) :
    Returns (s.pollTimer cx input) fun r => Timed s cx input r.1 r.2 := by
  unfold pollTimer
  split
  · rename_i htx
    exact .ret (.unarmed htx)
  · rename_i htx
    simp only [ne_eq, Decidable.not_not] at htx
    split
    · rename_i hfinal
      obtain ⟨timer, poll⟩ := Timer.pollDeadline s.timer cx s.txDeadline
      cases poll with
      | pending => exact .ret (.pending timer htx hfinal)
      | ready => exact .ret (.expired timer htx hfinal)
    · rename_i left hfinal
      split
      · rename_i hspent
        dsimp only
        split
        · rename_i hretries
          exact .ret (.timeout left htx hfinal hspent hretries)
        · rename_i hretries
          have hmax := toNat_le_u32Max s.config.maxRetries
          refine (checkedAdd_returns (show s.txRetries + 1 ≤ u32Max by
            simp only [ge_iff_le] at hretries; omega)).bind fun txRetries h => ?_
          subst h
          exact .ret (.requeue left htx hfinal hspent (by simpa using hretries))
      · rename_i hspent
        simp only [not_or] at hspent
        exact .ret (.listening left htx hfinal hspent.1 hspent.2)

/-! ## Driving -/

section Drive

variable [Transport T W E] [Timer C W]

/-- `step` returns. -/
theorem step_returns (hN : Fits N) (h : Inv s) (hsettled : Settled s) (cx : W) (budget : Budget) :
    Returns (s.step cx budget) fun r => Step s cx budget r.1 r.2.1 r.2.2 := by
  unfold step
  refine (pollOutput_returns hN h cx budget).bind fun r₁ h₁ => ?_
  obtain ⟨output, budget₁, s₁⟩ := r₁
  cases output with
  | error error => exact .ret (.output h₁)
  | ok output =>
      have hinv₁ := h.turns h₁.turns
      have hsettled₁ := hsettled.of_sameInput h₁.sameInput
      refine (pollInput_returns hN hsettled₁.rxLen_lt.le cx budget₁).bind fun r₂ h₂ => ?_
      obtain ⟨input, budget₂, s₂⟩ := r₂
      cases input with
      | error error => exact .ret (.input h₁ h₂)
      | ok input =>
          refine (pollTimer_returns s₂ cx input).bind fun r₃ h₃ => ?_
          obtain ⟨timer, s₃⟩ := r₃
          cases timer with
          | error error => exact .ret (.timer h₁ h₂ h₃)
          | ok timer => exact .ret (.done h₁ h₂ h₃)

/-- The loop of `drive` returns when its fuel exceeds the budget. -/
theorem driveLoop_returns (hN : Fits N) (h : Inv s) (hsettled : Settled s) (cx : W) {fuel : Nat}
    {budget : Budget} (hfuel : budget.left < fuel) :
    Returns (driveLoop cx fuel s budget) fun r => DriveLoop cx s budget r.1 r.2.1 r.2.2 := by
  induction fuel generalizing s budget with
  | zero => exact absurd hfuel (Nat.not_lt_zero _)
  | succ fuel ih =>
      rw [driveLoop]
      have hstart : Turns s (s.log .step) := (Turns.refl s).note _ rfl
      have hinv := h.turns hstart
      have hsettled := hsettled.of_sameInput ((SameInput.refl s).log .step rfl rfl)
      refine (step_returns hN hinv hsettled cx budget).bind fun r₁ h₁ => ?_
      obtain ⟨result, budget₁, s₁⟩ := r₁
      cases result with
      | error error => exact .ret (.error h₁)
      | ok work =>
          cases work with
          | progress =>
              have hspent : budget₁.left < budget.left := h₁.spends
              refine (ih ?_ ?_ (by omega)).mono fun r hr => .progress h₁ hr
              · exact hinv.turns ((h₁.turns hinv).note _ rfl)
              · exact hsettled.receives (h₁.receives.log _ rfl rfl)
          | blocked => exact .ret (.blocked h₁)
          | yield => exact .ret (.yield h₁)

/-- `drive` returns. -/
theorem drive_returns (hN : Fits N) (h : Inv s) (hsettled : Settled s) (cx : W) (budget : Budget) :
    Returns (s.drive cx budget) fun r => Drive s cx budget r.1 r.2.1 r.2.2 := by
  unfold drive
  split
  · rename_i hhealth
    exact (driveLoop_returns hN h hsettled cx (Nat.lt_succ_self _)).mono fun r hr =>
      .loop hhealth hr
  · rename_i hhealth
    exact .ret (.stopped hhealth)

end Drive

end CobsIoAsync.Connection.Reliable
