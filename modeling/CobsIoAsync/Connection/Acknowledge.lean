import CobsIoAsync.Connection.Acts

/-!
# Connection.Acknowledge — the acknowledgements of a receiver

Every packet that is taken is acknowledged by the next frame that is started, each acknowledgement
is owed to a packet, and a packet that is dropped changes nothing.
-/

namespace CobsIoAsync.Connection

open Reasoning Protocol

variable {T C W E : Type} {N : Nat}

/-! ## Packets that are taken -/

/-- Whether `process_frame` takes a data packet, after `count` payloads were retained: the payload
is retained, or the packet repeats the last one. -/
def Event.takes [Target] (N : Nat) (session : UInt64) (count : Nat) : Event W E → Bool
  | .retained .. => true
  | .parsed (.data session' seq payload) =>
    session' = session ∧ payload.length ≤ Reliable.maxPayload N ∧ seq.toNat + 1 = count
  | _ => false

/-- The number of data packets that are taken, after `count` payloads were retained. -/
def takenCount [Target] (N : Nat) (session : UInt64) : Nat → List (Event W E) → Nat
  | _, [] => 0
  | count, event :: rest => (if event.takes N session count then 1 else 0) +
      takenCount N session (count + event.retained?.toList.length) rest

/-- The number of acknowledgements that are started. -/
def acks (trace : List (Event W E)) : Nat := (startedFrames trace).countP (·.frame = .ack)

theorem acks_append (t u : List (Event W E)) : acks (t ++ u) = acks t + acks u := by
  rw [acks, startedFrames_append, List.countP_append, acks, acks]

theorem acks_of_none {t : List (Event W E)} (h : startedFrames t = []) : acks t = 0 := by
  rw [acks, h, List.countP_nil]

theorem takenCount_append [Target] (session : UInt64) (count : Nat) (t u : List (Event W E)) :
    takenCount N session count (t ++ u) =
      takenCount N session count t + takenCount N session (count + (retained t).length) u := by
  induction t generalizing count with
  | nil => simp [takenCount, retained]
  | cons event t ih =>
      rw [List.cons_append, takenCount, takenCount, ih, ← List.singleton_append, retained_append,
        retained_singleton, List.length_append, Nat.add_assoc count, Nat.add_assoc]

theorem startedFrames_eq_nil {t : List (Event W E)} :
    startedFrames t = [] ↔ ∀ event ∈ t, event.started? = none :=
  List.filterMap_eq_nil_iff

namespace Reliable

variable {s s' : Reliable T C W E N}
variable [Target]

/-! ## What is owed -/

/-- A packet that was taken is owed an acknowledgement until the next frame is started, which
acknowledges it; and no more acknowledgements are started than are owed. -/
structure Owed (s : Reliable T C W E N) : Prop where
  promised : ∀ before event after, s.trace = before ++ event :: after →
    event.takes N s.config.session (retained before).length → startedFrames after = [] →
      s.ackPending.isSome
  next : ∀ before event mid kind seq bytes rest,
    s.trace = before ++ event :: (mid ++ .started kind seq bytes :: rest) →
      event.takes N s.config.session (retained before).length → startedFrames mid = [] →
        kind = .ack ∧ seq.toNat + 1 = (retained (before ++ event :: mid)).length
  count : acks s.trace + (if s.ackPending.isSome then 1 else 0) ≤
    takenCount N s.config.session 0 s.trace

/-- While no frame is started, what comes next for the packets before stays open. -/
theorem Owed.next_of_none (h : Owed s) {events : List (Event W E)}
    (htrace : s'.trace = s.trace ++ events) (hconfig : s'.config = s.config)
    (hnone : startedFrames events = []) : ∀ before event mid kind seq bytes rest,
    s'.trace = before ++ event :: (mid ++ .started kind seq bytes :: rest) →
      event.takes N s'.config.session (retained before).length → startedFrames mid = [] →
        kind = .ack ∧ seq.toNat + 1 = (retained (before ++ event :: mid)).length := by
  intro before event mid kind seq bytes rest hsplit htakes hmid
  rw [htrace, ← List.cons_append, ← List.append_assoc] at hsplit
  rcases split_append hsplit with ⟨rest', hold, -⟩ | ⟨front, -, hnew⟩
  · rw [List.append_assoc, List.cons_append] at hold
    exact h.next before event mid kind seq bytes rest' hold (hconfig ▸ htakes) hmid
  · have := startedFrames_eq_nil.mp hnone (.started kind seq bytes) (by simp [hnew])
    cases this

theorem takenCount_eq_zero {session : UInt64} {count : Nat} {events : List (Event W E)}
    (h : ∀ front event back, events = front ++ event :: back →
      event.takes N session (count + (retained front).length) = false) :
    takenCount N session count events = 0 := by
  induction events generalizing count with
  | nil => rfl
  | cons event events ih =>
      have hfirst : event.takes N session count = false := h [] event events rfl
      have hrest : takenCount N session (count + event.retained?.toList.length) events = 0 :=
        ih fun front event' back hsplit => by
          have htakes := h (event :: front) event' back (by rw [hsplit]; rfl)
          rwa [← List.singleton_append, retained_append, retained_singleton, List.length_append,
            ← Nat.add_assoc] at htakes
      simp [takenCount, hfirst, hrest]

/-- Events that take no packet and start no frame change nothing of what is owed. -/
theorem Owed.grow (h : Owed s) {events : List (Event W E)}
    (htrace : s'.trace = s.trace ++ events) (hconfig : s'.config = s.config)
    (hack : s'.ackPending = s.ackPending) (hnone : startedFrames events = [])
    (huntaken : ∀ front event back, events = front ++ event :: back →
      event.takes N s.config.session (retained (s.trace ++ front)).length = false) : Owed s' := by
  refine ⟨?_, h.next_of_none htrace hconfig hnone, ?_⟩
  · intro before event after hsplit htakes hafter
    rw [htrace] at hsplit
    rw [hconfig] at htakes
    rcases split_append hsplit with ⟨rest, hold, rfl⟩ | ⟨front, rfl, hnew⟩
    · rw [startedFrames_append, List.append_eq_nil_iff] at hafter
      exact hack ▸ h.promised before event rest hold htakes hafter.1
    · rw [huntaken front event after hnew] at htakes
      cases htakes
  · have hzero : takenCount N s.config.session (retained s.trace).length events = 0 := by
      refine takenCount_eq_zero fun front event back hsplit => ?_
      have htakes := huntaken front event back hsplit
      rwa [retained_append, List.length_append] at htakes
    rw [htrace, hconfig, hack, takenCount_append, Nat.zero_add, hzero, acks_append,
      acks_of_none hnone]
    exact h.count

/-- A packet is taken, or was taken before, and its acknowledgement is pending. -/
theorem Owed.owe (h : Owed s) {events : List (Event W E)}
    (htrace : s'.trace = s.trace ++ events) (hconfig : s'.config = s.config)
    (hack : s'.ackPending.isSome) (hnone : startedFrames events = [])
    (htaken : s.ackPending.isSome ∨
      0 < takenCount N s.config.session (retained s.trace).length events) : Owed s' := by
  refine ⟨fun _ _ _ _ _ _ => hack, h.next_of_none htrace hconfig hnone, ?_⟩
  have hcount := h.count
  rw [htrace, hconfig, if_pos hack, takenCount_append, acks_append, acks_of_none hnone,
    Nat.zero_add]
  by_cases hpending : s.ackPending.isSome
  · rw [if_pos hpending] at hcount
    omega
  · have := htaken.resolve_left hpending
    omega

/-- A frame is started: the acknowledgement that is owed, before everything else. -/
theorem Owed.start (h : Owed s) (hinv : Inv s) (hcounts : Counts s) (hstart : Start s s') :
    Owed s' := by
  -- nothing is owed to any packet behind which this frame is started
  have hlast : ∀ {kind : Frame} {seq : UInt32} {bytes : List UInt8},
      s'.trace = s.trace ++ [.started kind seq bytes] → s'.config = s.config →
        ((∀ {before event mid}, s.trace = before ++ event :: mid →
          event.takes N s.config.session (retained before).length → startedFrames mid = [] →
            kind = .ack ∧ seq.toNat + 1 = (retained s.trace).length)) →
          acks s'.trace + (if s'.ackPending.isSome then 1 else 0) ≤
            takenCount N s'.config.session 0 s'.trace → Owed s' := by
    intro kind seq bytes htrace hconfig howed hcount
    refine ⟨?_, ?_, hcount⟩
    · intro before event after hsplit htakes hafter
      rw [htrace] at hsplit
      rcases split_concat hsplit with ⟨rest, -, rfl⟩ | ⟨-, rfl, -⟩
      · simp [Event.started?] at hafter
      · cases htakes
    · intro before event mid kind' seq' bytes' rest hsplit htakes hmid
      rw [htrace, ← List.cons_append, ← List.append_assoc] at hsplit
      rw [hconfig] at htakes
      rcases split_concat hsplit with ⟨rest', hold, -⟩ | ⟨hbefore, heq, -⟩
      · rw [List.append_assoc, List.cons_append] at hold
        exact h.next before event mid kind' seq' bytes' rest' hold htakes hmid
      · cases heq
        rw [hbefore]
        exact howed hbefore.symm htakes hmid
  have hcount := h.count
  cases hstart with
  | going => exact h
  | ack seq ackFrame ackLen hout hack =>
      refine hlast rfl rfl (fun _ _ _ => ⟨rfl, ?_⟩) ?_
      · rw [hinv.ack_next hack, hcounts.rxNext]
      · rw [hack] at hcount
        simpa [takenCount_append, acks_append, acks, Event.started?] using
          hcount.trans (Nat.le_add_right _ _)
  | data hout hack htx =>
      refine hlast rfl rfl (fun hsplit htakes hmid => ?_) ?_
      · exact absurd (h.promised _ _ _ hsplit htakes hmid) (by simp [hack])
      · rw [hack] at hcount
        simpa [hack, takenCount_append, acks_append, acks, Event.started?] using
          hcount.trans (Nat.le_add_right _ _)

/-- An event that takes no packet and starts no frame. -/
theorem Owed.snoc (h : Owed s) {event : Event W E} (htrace : s'.trace = s.trace ++ [event])
    (hconfig : s'.config = s.config) (hack : s'.ackPending = s.ackPending)
    (hnone : event.started? = none)
    (huntaken : event.takes N s.config.session (retained s.trace).length = false) : Owed s' := by
  refine h.grow htrace hconfig hack (by simp [hnone]) fun front event' back hsplit => ?_
  obtain ⟨rfl, rfl, -⟩ : front = [] ∧ event' = event ∧ back = [] := by
    rcases split_concat (t := []) hsplit with ⟨rest, hnil, -⟩ | hlast
    · simp at hnil
    · exact hlast
  rwa [List.append_nil]

/-- A parsed packet leaves what is owed as it is, or it is taken and acknowledged. -/
theorem Owed.take (h : Owed s) (hcounts : Counts s) {packet : Packet}
    (htake : Take (s.log (.parsed packet)) packet s') : Owed s' := by
  have hrx := hcounts.rxNext
  generalize hlog : s.log (.parsed packet) = t at htake
  have htrace : t.trace = s.trace ++ [Event.parsed packet] := by rw [← hlog]; rfl
  have hconfig : t.config = s.config := by rw [← hlog]; rfl
  have hack' : t.ackPending = s.ackPending := by rw [← hlog]; rfl
  have hnext : t.rxNext = s.rxNext := by rw [← hlog]; rfl
  -- what the packet was taken for decides whether it is owed an acknowledgement from now on
  cases htake with
  | release seq =>
      have ht : Owed t := h.snoc htrace hconfig hack' rfl rfl
      exact ht.snoc rfl rfl rfl rfl rfl
  | stale => exact h.snoc htrace hconfig hack' rfl rfl
  | foreign session seq payload hforeign =>
      refine h.snoc htrace hconfig hack' rfl ?_
      rw [hconfig] at hforeign
      have hnot : ¬(session = s.config.session ∧ payload.length ≤ maxPayload N ∧
          seq.toNat + 1 = (retained s.trace).length) := by
        rintro ⟨rfl, hle, -⟩
        rcases hforeign with hne | hlong
        · exact hne rfl
        · omega
      simpa [Event.takes] using hnot
  | full seq payload hlen hseq hfull =>
      refine h.snoc htrace hconfig hack' rfl ?_
      have hnot : ¬seq.toNat + 1 = (retained s.trace).length := by omega
      simp [Event.takes, hnot]
  | unexpected seq payload hlen hseq hnot =>
      by_cases hack : s.ackPending.isSome
      · exact h.owe htrace hconfig (hack' ▸ hack) rfl (.inl hack)
      · -- nothing is pending, so the number is not that of the last payload
        refine h.snoc htrace hconfig hack' rfl ?_
        have hnone : s.ackPending = none := by simpa using hack
        simp only [hack', hnone, and_true] at hnot
        have hlast : ¬seq.toNat + 1 = (retained s.trace).length := by omega
        simp [Event.takes, hlast]
  | retain seq payload rxPayload hlen hseq hempty hpayload =>
      have hretained : t.trace ++ [.retained seq payload] = s.trace ++
          [.parsed (.data t.config.session seq payload), .retained seq payload] := by simp [htrace]
      refine h.owe hretained hconfig rfl rfl (.inr ?_)
      simp [takenCount, Event.takes]
  | again seq payload hlen hrx' hseq hack =>
      refine h.owe htrace hconfig rfl rfl (.inr ?_)
      have hlast : seq.toNat + 1 = (retained s.trace).length := by omega
      simp [takenCount, Event.takes, hconfig, hlen, hlast]

theorem Owed.processFrame (h : Owed s) (hcounts : Counts s) {body : List UInt8}
    (hframe : ProcessFrame s body s') : Owed s' := by
  have hbody : ∀ scratch, Owed { s.log (.frame body) with scratch } := fun scratch =>
    h.snoc (show _ = s.trace ++ [.frame body] from rfl) rfl rfl rfl rfl
  cases hframe with
  | @undecodable _ scratch => exact hbody scratch
  | @unparsable _ scratch => exact (hbody scratch).snoc rfl rfl rfl rfl rfl
  | @parsed decoded scratch _ _ hdecode hparse htake =>
      have hpacket : Owed ({ s.log (.frame body) with scratch }.log
          (.decoded (scratch.toList.take decoded.len))) := (hbody scratch).snoc rfl rfl rfl rfl rfl
      have hcounted := hcounts.move (.turn (.note s (.frame body) rfl))
      have hcounted' : Counts { s.log (.frame body) with scratch } := ⟨hcounted.1, hcounted.2⟩
      exact hpacket.take (hcounted'.move (.turn (.note _ _ rfl))) htake

/-- Events of another kind change nothing of what is owed. -/
theorem Owed.of_adds (h : Owed s)
    (hadds : Adds (fun event => event.input = false ∧ event.started? = none) s s')
    (hconfig : s'.config = s.config) (hack : s'.ackPending = s.ackPending) : Owed s' := by
  obtain ⟨events, htrace, hevents⟩ := hadds
  refine h.grow htrace hconfig hack
    (startedFrames_eq_nil.mpr fun event hevent => (hevents event hevent).2) ?_
  rintro front event back rfl
  have hinput := (hevents event (by simp)).1
  cases event <;> simp_all [Event.input, Event.takes]

theorem Owed.beat (h : Owed s) (hthrough : Inv s ∧ Counts s) (hbeat : Beat Act s s') : Owed s' := by
  rcases hbeat.apart_or with ⟨-, hact⟩ | ⟨_, _, _, _, -, rfl⟩ | hapart
  · have hconfig := (hact.turns hthrough.1).inner.config
    rcases hact.cases with hstart | ⟨body, -, -, -, hframe⟩ | ⟨hack, hadds⟩
    · exact h.start hthrough.1 hthrough.2 hstart
    · exact h.processFrame hthrough.2 hframe
    · exact h.of_adds hadds hconfig hack
  · exact h.snoc rfl rfl rfl rfl rfl
  · obtain ⟨hadds, _, _, _, _, _, _, _, -, rfl⟩ := hapart
    refine h.of_adds (hadds.mono fun event hevent => ?_) rfl rfl
    cases event <;> simp_all [Event.apart, Event.aside, Event.input, Event.started?]

/-! ## Packets that are dropped -/

/-- A packet with the next number is dropped while the last payload is unread, and one with any
number but this and the one before is always dropped. -/
theorem processPacket_dropped (s : Reliable T C W E N) (session : UInt64) (seq : UInt32)
    (payload : List UInt8) (hdropped : seq.toNat = s.rxNext ∧ s.rxStart ≠ s.rxEnd ∨
      seq.toNat ≠ s.rxNext ∧ seq.toNat + 1 ≠ s.rxNext) :
    s.processPacket (.data session seq payload) = some s := by
  rw [processPacket]
  by_cases hforeign : session ≠ s.config.session ∨ payload.length > maxPayload N
  · rw [if_pos hforeign]
  rw [if_neg hforeign]
  rcases hdropped with ⟨hseq, hfull⟩ | ⟨hseq, hlast⟩
  · rw [if_pos hseq, if_neg hfull]
  · rw [if_neg hseq, if_neg]
    omega

/-! ## Runs -/

omit [Target] in
/-- The last event of a trace that `f` looks at. -/
theorem exists_last {α β : Type} {f : α → Option β} {t : List α} (h : t.filterMap f ≠ []) :
    ∃ before event b after, t = before ++ event :: after ∧ f event = some b ∧
      after.filterMap f = [] := by
  induction t using List.reverseRecOn with
  | nil => exact absurd rfl h
  | append_singleton t event ih =>
      cases hevent : f event with
      | some b => exact ⟨t, event, b, [], rfl, hevent, rfl⟩
      | none =>
          have hlast : [event].filterMap f = [] := List.filterMap_cons_none hevent
          rw [List.filterMap_append, hlast, List.append_nil] at h
          obtain ⟨before, event', b, after, rfl, hb, hafter⟩ := ih h
          refine ⟨before, event', b, after ++ [event], by simp, hb, ?_⟩
          rw [List.filterMap_append, hafter, hlast, List.append_nil]

omit [Target] in
theorem length_retained (before mid : List (Event W E)) (seq : UInt32) (payload : List UInt8) :
    (retained (before ++ .retained seq payload :: mid)).length =
      (retained before).length + 1 + (retained mid).length := by
  rw [← List.singleton_append, retained_append, retained_append, List.length_append,
    List.length_append, Nat.add_assoc]
  rfl

omit [Target] in
/-- The first frame that is started in a part of a trace. -/
theorem exists_started {t : List (Event W E)} (h : startedFrames t ≠ []) :
    ∃ mid kind seq bytes rest, t = mid ++ Event.started kind seq bytes :: rest ∧
      startedFrames mid = [] := by
  obtain ⟨f, frames, hframes⟩ := List.exists_cons_of_ne_nil h
  obtain ⟨mid, event, rest, rfl, hmid, hevent, -⟩ := List.filterMap_eq_cons_iff.mp hframes
  cases event with
  | started kind seq bytes =>
      exact ⟨mid, kind, seq, bytes, rest, rfl, startedFrames_eq_nil.mpr hmid⟩
  | _ => cases hevent

/-- What holds of the acknowledgements of a connection at every moment of a run. -/
structure Acknowledges (s : Reliable T C W E N) : Prop where
  /-- The next frame behind a packet that is taken acknowledges the last payload. -/
  next : ∀ before event mid kind seq bytes rest,
    s.trace = before ++ event :: (mid ++ .started kind seq bytes :: rest) →
      event.takes N s.config.session (retained before).length → startedFrames mid = [] →
        kind = .ack ∧ seq.toNat + 1 = (retained (before ++ event :: mid)).length
  count : acks s.trace ≤ takenCount N s.config.session 0 s.trace
  genuine : ∀ before seq bytes after, s.trace = before ++ .started .ack seq bytes :: after →
    seq.toNat < (retained before).length
  dropped : ∀ session seq payload, (seq.toNat = s.rxNext ∧ s.rxStart ≠ s.rxEnd ∨
    seq.toNat ≠ s.rxNext ∧ seq.toNat + 1 ≠ s.rxNext) →
      s.processPacket (.data session seq payload) = some s
  /-- When nothing is left to be acknowledged, the last payload was. -/
  idle : s.out = .idle → s.ackPending = none → 0 < s.rxNext →
    ∃ before seq payload mid bytes sent cx rest,
      s.trace = before ++ .retained seq payload :: (mid ++ .started .ack seq bytes ::
        (sent ++ .pollFlush cx .ack (.ready (.ok ())) :: rest)) ∧
      seq.toNat + 1 = s.rxNext ∧ accepted sent = bytes

theorem Visited.owed (h : Visited Act s) : Owed s := by
  refine h.keep (fun _ _ _ => ⟨by simp [initial], by simp [initial], ?_⟩)
    fun hvisited hs hbeat => ?_
  · simp [initial, acks, takenCount, startedFrames]
  · have hthrough := hvisited.through covers_act
    exact hs.beat ⟨hthrough.inv, hthrough.history.counts⟩ hbeat

theorem Visited.settled_acks (h : Visited Act s) (hout : s.out = .idle)
    (hack : s.ackPending = none) (hrx : 0 < s.rxNext) :
    ∃ before seq payload mid bytes sent cx rest,
      s.trace = before ++ .retained seq payload :: (mid ++ .started .ack seq bytes ::
        (sent ++ .pollFlush cx .ack (.ready (.ok ())) :: rest)) ∧
      seq.toNat + 1 = s.rxNext ∧ accepted sent = bytes := by
  have howed := h.owed
  have hcount := (h.through covers_act).history.counts.rxNext
  have hne : retained s.trace ≠ [] := by
    intro hnil
    rw [hnil, List.length_nil] at hcount
    omega
  obtain ⟨before, event, payload, after, htrace, hevent, hafter⟩ := exists_last hne
  obtain ⟨seq, rfl⟩ : ∃ seq, event = .retained seq payload := by
    cases event with
    | retained seq payload' => exact ⟨seq, by rw [Option.some.inj hevent]⟩
    | _ => cases hevent
  have hlength : (retained s.trace).length = (retained before).length + 1 := by
    have hnone : retained after = [] := hafter
    rw [htrace, length_retained, hnone, List.length_nil]
  -- its number is the number of payloads before
  have hseq : seq.toNat = (retained before).length := by
    obtain ⟨transport, timer, config, hN, hmoves⟩ := h.moves covers_act
    obtain ⟨s₁, s₂, h₁, hmove, -, rfl, hs₂⟩ := hmoves.through_event hN htrace
    rw [hmove.of_retained hs₂, h₁.history.counts.rxNext]
  have hstarted : startedFrames after ≠ [] := by
    intro hnone
    have hpending := howed.promised before _ after htrace rfl hnone
    rw [hack] at hpending
    cases hpending
  obtain ⟨mid, kind, seq', bytes, rest, rfl, hmid⟩ := exists_started hstarted
  obtain ⟨rfl, hseq'⟩ := howed.next before _ mid kind seq' bytes rest htrace rfl hmid
  rw [length_retained] at hseq'
  have hmid' : retained mid = [] := (List.append_eq_nil_iff.mp
    ((retained_append mid _).symm.trans hafter)).1
  rw [hmid', List.length_nil] at hseq'
  obtain rfl : seq' = seq := UInt32.toNat_inj.mp (by omega)
  rw [← List.cons_append, ← List.append_assoc] at htrace
  rcases h.finished covers_act htrace with ⟨sent, cx, rest', rfl, hsent, -⟩ | ⟨hcurrent, -⟩
  · exact ⟨before, seq', payload, mid, bytes, sent, cx, rest', by rw [htrace]; simp, by omega, hsent⟩
  · rw [Reliable.line, hout] at hcurrent
    cases hcurrent

/-- Acknowledgements are neither lost nor invented, inside a call and between two calls. -/
theorem Visited.acknowledges (h : Visited Act s) : Acknowledges s where
  next := h.owed.next
  count := Nat.le_trans (Nat.le_add_right _ _) h.owed.count
  genuine := by
    intro before seq bytes after htrace
    obtain ⟨transport, timer, config, hN, hmoves⟩ := h.moves covers_act
    obtain ⟨s₁, s₂, h₁, hmove, -, rfl, hs₂⟩ := hmoves.through_event hN htrace
    obtain ⟨-, ⟨-, hack, -⟩ | ⟨hkind, -⟩⟩ := hmove.of_started hs₂
    · have hnext := h₁.inv.ack_next hack
      have hcount := h₁.history.counts.rxNext
      omega
    · cases hkind
  dropped := processPacket_dropped s
  idle := h.settled_acks

omit [Target] in
/-- A packet arrives twice, with an acknowledgement in between, and is acknowledged twice. -/
theorem acknowledges_twice : letI := target64
    ∃ s, (testConnection ([0, 2, 1, 1, 1, 1, 1, 1, 1, 2, 7, 1, 1, 1, 6, 5, 33, 219, 92, 134, 0] ++
        [2, 1, 1, 1, 1, 1, 1, 1, 2, 7, 1, 1, 1, 6, 5, 33, 219, 92, 134, 0])).calls [.progress 1] =
          some s ∧ acks s.trace = 2 ∧ takenCount 21 testConfig.session 0 s.trace = 2 ∧
        Acknowledges s := by
  let := target64
  let link : List UInt8 := [0, 2, 1, 1, 1, 1, 1, 1, 1, 2, 7, 1, 1, 1, 6, 5, 33, 219, 92, 134, 0] ++
    [2, 1, 1, 1, 1, 1, 1, 1, 2, 7, 1, 1, 1, 6, 5, 33, 219, 92, 134, 0]
  obtain ⟨s, hs⟩ := Option.isSome_iff_exists.mp
    (show ((testConnection link).calls [.progress 1]).isSome by decide +kernel)
  have hstate : ((testConnection link).calls [.progress 1]).map
      (fun s => (acks s.trace, takenCount 21 testConfig.session 0 s.trace)) = some (2, 2) := by
    decide +kernel
  rw [hs] at hstate
  obtain ⟨hacks, htaken⟩ := Prod.mk.inj (Option.some.inj hstate)
  exact ⟨s, hs, hacks, htaken,
    ((reachable_testConnection hs).visited covers_act).acknowledges⟩

end Reliable

end CobsIoAsync.Connection
