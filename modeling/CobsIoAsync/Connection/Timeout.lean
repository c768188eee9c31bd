import CobsIoAsync.Connection.Failure
import CobsIoAsync.Connection.Link
import CobsIoAsync.Connection.Retransmit

/-!
# Connection.Timeout — when the connection gives up on a packet

`ConnectionError::Timeout` is raised behind the last transmission that the configuration allows, once
that was waited out like the ones before and while the packet is unacknowledged.  What the clock says
about the transmissions is read off the trace.
-/

namespace CobsIoAsync.Connection

open Reasoning Protocol

variable {T C W E : Type} {N : Nat}

/-! ## The clock -/

/-- What an event says of the time on the clock: `now` returns it, and a deadline is ready only once
it is reached. -/
def Event.tells (time : Nat) : Event W E → Bool
  | .now value => value.toNat = time
  | .pollDeadline _ deadline (.ready ()) => deadline.toNat ≤ time
  | _ => true

/-- `clock n` is what the clock shows at event `n` of the trace, and it never runs back. -/
structure Clock (events : List (Event W E)) (clock : Nat → Nat) : Prop where
  mono : Monotone clock
  tells : ∀ n (event : Event W E), events[n]? = some event → event.tells (clock n)

/-- Behind the start of a transmission at event `start`: its bytes were accepted and flushed, and
since the moment of the flush the time to retransmit has passed. -/
def Elapsed (clock : Nat → Nat) (timeout : UInt64) (start : Nat) (bytes : List UInt8)
    (after : List (Event W E)) : Prop :=
  ∃ sent cx now rest, after = sent ++ .pollFlush cx .data (.ready (.ok ())) :: .now now :: rest ∧
    accepted sent = bytes ∧ clock (start + sent.length + 2) = now.toNat ∧
      min (now.toNat + timeout.toNat) u64Max ≤ clock (start + 1 + after.length)

theorem toNat_saturatingAdd (a b : UInt64) :
    (Reliable.saturatingAdd a b).toNat = min (a.toNat + b.toNat) u64Max := by
  unfold Reliable.saturatingAdd
  split
  · rename_i hle
    have hlt : a.toNat + b.toNat < 2 ^ 64 := by
      simp only [u64Max] at hle
      omega
    rw [UInt64.toNat_add, Nat.mod_eq_of_lt hlt, Nat.min_eq_left hle]
  · rename_i hgt
    rw [Nat.min_eq_right (by omega)]
    decide

/-- A transmission that was waited out took the time to retransmit. -/
theorem Clock.elapsed {trace : List (Event W E)} {clock : Nat → Nat} (h : Clock trace clock)
    {timeout : UInt64} {seq : UInt32} {before bytes after rest}
    (htrace : trace = before ++ .started .data seq bytes :: (after ++ rest))
    (hwaited : WaitedOut timeout bytes after) :
    Elapsed clock timeout before.length bytes after := by
  obtain ⟨sent, cx, now, mid, cx', last, rfl, hsent⟩ := hwaited
  have hat : ∀ {front event back}, trace = front ++ event :: back →
      event.tells (clock front.length) = true := fun {front event back} hsplit =>
    h.tells _ _ (by rw [hsplit]; simp)
  refine ⟨sent, cx, now, _, rfl, hsent, ?_, ?_⟩
  · -- The clock is read when the flush ends, and the deadline it gives is polled later.
    have hnow : Event.tells (clock _) (.now now) = true := @hat (before ++ .started .data seq bytes ::
      (sent ++ [.pollFlush cx .data (.ready (.ok ()))])) (.now now) (mid ++ .pollDeadline cx'
        (Reliable.saturatingAdd now timeout) (.ready ()) :: (last ++ rest)) (by simp [htrace])
    simp only [Event.tells, decide_eq_true_eq] at hnow
    rw [hnow]
    congr 1
    simp
    omega
  · have hdeadline : Event.tells (clock _) (.pollDeadline cx' _ (.ready ())) = true :=
      @hat (before ++ .started .data seq bytes ::
        (sent ++ .pollFlush cx .data (.ready (.ok ())) :: .now now :: mid)) (.pollDeadline cx'
          (Reliable.saturatingAdd now timeout) (.ready ())) (last ++ rest) (by simp [htrace])
    simp only [Event.tells, decide_eq_true_eq, toNat_saturatingAdd] at hdeadline
    apply hdeadline.trans
    apply h.mono
    simp
    omega

/-- What a trace up to a timeout shows of the last packet that was accepted: it was transmitted as often
as the configuration allows, every transmission was waited out, and no acknowledgement of it was
processed. -/
def GivenUp (config : Config) (trace : List (Event W E)) : Prop :=
  ∃ before seq payload after, trace = before ++ .queued seq payload :: after ∧
    queuedSeqs after = [] ∧ transmissions seq trace = config.maxRetries.toNat + 1 ∧
      (∀ front bytes rest, trace = front ++ .started .data seq bytes :: rest →
        WaitedOut config.retransmitTimeout bytes rest) ∧
          .parsed (.ack config.session seq) ∉ after

/-- Whether an event accepts a packet or parses one. -/
def Event.speaks : Event W E → Bool
  | .queued .. | .parsed _ => true
  | _ => false

namespace Reliable

variable {s s' : Reliable T C W E N}

/-- No transmission of the packet in flight is short of its time, once the last one is not. -/
theorem Spaced.waited (h : Spaced s) {seq : UInt32}
    (hlatest : Latest seq (WaitedOut s.config.retransmitTimeout) s.trace)
    {before after : List (Event W E)} {bytes : List UInt8}
    (htrace : s.trace = before ++ .started .data seq bytes :: after) :
    WaitedOut s.config.retransmitTimeout bytes after := by
  by_cases hlast : transmissions seq after = 0
  · exact hlatest before bytes after htrace hlast
  · -- up to the next transmission
    have hne : after.filter (Event.sends seq) ≠ [] := fun hnil =>
      hlast (List.countP_eq_length_filter.trans (List.length_eq_zero_iff.mpr hnil))
    obtain ⟨event, events, hevents⟩ := List.exists_cons_of_ne_nil hne
    obtain ⟨mid, rest, rfl, hmid, hsends, -⟩ := List.filter_eq_cons_iff.mp hevents
    obtain ⟨bytes', rfl⟩ := Event.exists_of_sends hsends
    exact (h.between seq before bytes mid bytes' rest htrace
      (transmissions_eq_zero.mpr hmid)).append _

/-! ## The packet in flight is unacknowledged -/

/-- No acknowledgement of the packet in flight was processed since the packet was accepted. -/
def Unacknowledged (s : Reliable T C W E N) : Prop :=
  s.tx ≠ .idle → ∀ before seq payload after,
    s.trace = before ++ .queued seq payload :: after → seq.toNat + 1 = s.txNext →
      .parsed (.ack s.config.session seq) ∉ after

theorem Unacknowledged.grow (h : Unacknowledged s) {events : List (Event W E)}
    (htrace : s'.trace = s.trace ++ events) (hconfig : s'.config = s.config)
    (hnext : s'.txNext = s.txNext) (htx : s'.tx ≠ .idle → s.tx ≠ .idle)
    (hnone : ∀ event ∈ events, event.speaks = false) : Unacknowledged s' := by
  intro hflight before seq payload after hsplit hseq
  rw [htrace] at hsplit
  rw [hconfig]
  rcases split_append hsplit with ⟨rest, hold, rfl⟩ | ⟨front, -, rfl⟩
  · intro hmem
    rcases List.mem_append.mp hmem with hbefore | hnew
    · exact h (htx hflight) before seq payload rest hold (hseq.trans hnext) hbefore
    · exact absurd (hnone _ hnew) (by simp [Event.speaks])
  · exact absurd (hnone (.queued seq payload) (by simp)) (by simp [Event.speaks])

theorem Unacknowledged.log (h : Unacknowledged s) {event : Event W E}
    (hnone : event.speaks = false) : Unacknowledged (s.log event) :=
  h.grow rfl rfl rfl id (by simpa using hnone)

/-- Whether a packet acknowledges the one in flight. -/
def Confirms (s : Reliable T C W E N) (packet : Packet) : Prop :=
  s.tx ≠ .idle ∧ ∃ seq, seq.toNat + 1 = s.txNext ∧ packet = .ack s.config.session seq

theorem Unacknowledged.parse (h : Unacknowledged s) {packet : Packet}
    (hpacket : ¬Confirms s packet) : Unacknowledged (s.log (.parsed packet)) := by
  intro hflight before seq payload after hsplit hseq hmem
  rcases split_concat hsplit with ⟨rest, hold, rfl⟩ | ⟨-, -, rfl⟩
  · rcases List.mem_append.mp hmem with hbefore | hnew
    · exact h hflight before seq payload rest hold hseq hbefore
    · have heq := Event.parsed.inj (List.mem_singleton.mp hnew)
      exact hpacket ⟨hflight, seq, hseq, heq.symm⟩
  · cases hmem

variable [Target]

/-- A packet that acknowledges the one in flight releases it. -/
theorem Unacknowledged.take {packet : Packet} (h : ¬Confirms s packet → Unacknowledged s)
    (htake : Take s packet s') : Unacknowledged s' := by
  have hdata : ∀ {session seq payload}, packet = .data session seq payload → Unacknowledged s := by
    rintro session seq payload rfl
    apply h
    rintro ⟨_, _, _, heq⟩
    cases heq
  cases htake with
  | release => exact fun hne => absurd rfl hne
  | retain => exact (hdata rfl).grow rfl rfl rfl id (by simp [Event.speaks])
  | again => exact (hdata rfl).grow (List.append_nil _).symm rfl rfl id (by simp)
  | foreign => exact hdata rfl
  | full => exact hdata rfl
  | unexpected => exact hdata rfl
  | stale session seq hnot =>
      apply h
      rintro ⟨hflight, seq', hseq, heq⟩
      cases heq
      exact hnot ⟨rfl, hflight, hseq⟩

theorem Unacknowledged.processFrame (h : Unacknowledged s) {body : List UInt8}
    (hframe : ProcessFrame s body s') : Unacknowledged s' := by
  have hdecode : ∀ scratch : Bytes N, Unacknowledged { s.log (.frame body) with scratch } :=
    fun scratch => h.grow (show _ = s.trace ++ [.frame body] from rfl) rfl rfl id
      (by simp [Event.speaks])
  cases hframe with
  | undecodable => exact hdecode _
  | unparsable => exact (hdecode _).log rfl
  | parsed _ _ htake =>
      refine Unacknowledged.take (fun hnot => ?_) htake
      exact ((hdecode _).log rfl).parse hnot

theorem Unacknowledged.act (hinv : Inv s) (h : Unacknowledged s) (hact : Act s s') :
    Unacknowledged s' := by
  have hturns := hact.turns hinv
  obtain ⟨hnext, htx⟩ := hturns.flight
  rcases hact.frame_or with ⟨body, -, -, -, hframe⟩ | hinput
  · exact h.processFrame hframe
  · obtain ⟨events, htrace, hevents⟩ := hinput.and hturns.inner.adds
    refine h.grow htrace hturns.inner.config hnext htx fun event hevent => ?_
    obtain ⟨hnone, hinner⟩ := hevents event hevent
    cases event <;> simp_all [Event.speaks, Event.input, Event.inner]

omit [Target] in
/-- A packet that is queued has the next number. -/
theorem Unacknowledged.queue (hnumbered : Numbered s) {payload : List UInt8}
    {scratch txFrame : Bytes N} {txLen : Nat} :
    Unacknowledged ({ s with
      scratch, txFrame, txLen, txNext := s.txNext + 1, txRetries := 0, tx := .queued }.log
        (.queued (UInt32.ofNat s.txNext) payload)) := by
  intro _ before seq payload' after hsplit hseq
  rcases split_concat hsplit with ⟨rest, hold, -⟩ | ⟨-, -, rfl⟩
  · -- an earlier packet has a smaller number
    have hevent : .queued seq payload' ∈ s.trace := hold ▸ List.mem_append_right _ (.head _)
    have hmem : seq.toNat ∈ (queuedSeqs s.trace).map UInt32.toNat :=
      List.mem_map_of_mem (List.mem_filterMap.mpr ⟨_, hevent, rfl⟩)
    rw [hnumbered, List.mem_range] at hmem
    simp only [log_txNext] at hseq
    omega
  · exact List.not_mem_nil

theorem Unacknowledged.beat (hinv : Inv s) (hnumbered : Numbered s) (h : Unacknowledged s)
    (hbeat : Beat Act s s') : Unacknowledged s' := by
  rcases hbeat.apart_or with ⟨-, hact⟩ | ⟨_, _, _, _, -, rfl⟩ | ⟨⟨events, htrace, hevents⟩, hsame⟩
  · exact h.act hinv hact
  · exact .queue hnumbered
  · obtain ⟨_, _, _, _, _, _, _, -, rfl⟩ := hsame
    refine h.grow htrace rfl rfl id fun event hevent => ?_
    have hapart : event.apart = true := hevents event hevent
    cases event <;> first | rfl | cases hapart

/-! ## Timeouts -/

/-- An act that times out does so behind a deadline that passed, after the last retry. -/
theorem Act.timedOut_or (h : Act s s') :
    (s.tx = .waiting ∧ s.finalInput.isSome ∧ s.config.maxRetries.toNat ≤ s.txRetries ∧
      s'.trace = s.trace ++ [Event.timedOut] ∧ s'.config = s.config) ∨
        Adds (fun event => event ≠ Event.timedOut) s s' := by
  cases h with
  | buffer => exact .inr (.of_eq rfl)
  | start h =>
      cases h with
      | going => exact .inr (.of_eq rfl)
      | _ => exact .inr (.of_snoc rfl (by simp))
  | write _ h => cases h <;> exact .inr (.of_snoc rfl (by simp))
  | flush _ h =>
      cases h with
      | sent => exact .inr ⟨_, List.append_assoc .., by simp⟩
      | _ => exact .inr (.of_snoc rfl (by simp))
  | ask => exact .inr (.of_snoc rfl (by simp))
  | read => exact .inr (.of_snoc rfl (by simp))
  | frame _ _ _ h =>
      refine .inr (h.adds.mono fun event hinput heq => ?_)
      subst heq
      cases hinput
  | timer h =>
      cases h with
      | unarmed => exact .inr (.of_eq rfl)
      | listening => exact .inr (.of_eq rfl)
      | requeue => exact .inr (.of_eq rfl)
      | timeout left htx hfinal _ hretries =>
          exact .inl ⟨htx, by rw [hfinal]; rfl, hretries, rfl, rfl⟩
      | _ => exact .inr (.of_snoc rfl (by simp))

section Runs

omit [Target] in
/-- The last packet that was accepted, while it is in flight. -/
theorem Numbered.last (h : Numbered s) (hpos : 0 < s.txNext) :
    ∃ before seq payload after, s.trace = before ++ .queued seq payload :: after ∧
      queuedSeqs after = [] ∧ seq.toNat + 1 = s.txNext := by
  have hne : queuedSeqs s.trace ≠ [] := by
    intro hnil
    rw [Numbered, hnil, List.map_nil, eq_comm, List.range_eq_nil] at h
    omega
  obtain ⟨before, event, seq, after, htrace, hevent, hafter⟩ := exists_last hne
  have hseqs : queuedSeqs s.trace = queuedSeqs before ++ [seq] := by
    rw [htrace, ← List.singleton_append, queuedSeqs_append, queuedSeqs_append, queuedSeqs_singleton,
      hevent]
    simp [queuedSeqs, hafter]
  rw [Numbered, hseqs, List.map_append] at h
  have hlast := congrArg List.getLast? h
  rw [List.getLast?_range, if_neg (by omega)] at hlast
  simp only [List.map_singleton, List.getLast?_concat, Option.some.injEq] at hlast
  cases event with
  | queued seq' payload =>
      obtain rfl : seq' = seq := Option.some.inj hevent
      exact ⟨before, seq', payload, after, htrace, hafter, by omega⟩
  | _ => cases hevent

/-- What a trace shows when the deadline of the last transmission passed. -/
theorem Transmits.givenUp (htransmits : Transmits s) (hthrough : Through s) (hnumbered : Numbered s)
    (hunacknowledged : Unacknowledged s) (htx : s.tx = .waiting) (hfinal : s.finalInput.isSome)
    (hretries : s.config.maxRetries.toNat ≤ s.txRetries) : GivenUp s.config s.trace := by
  have hbusy : s.tx ≠ .idle := by simp [htx]
  have hpos := hthrough.history.frame.txNext_pos hthrough.history.counts (.inl hbusy)
  obtain ⟨before, seq, payload, after, htrace, hafter, hseq⟩ := hnumbered.last hpos
  have hflight := htransmits.flight seq hseq
  simp only [InFlight, htx] at hflight
  obtain ⟨hcount, -, hwaited⟩ := hflight
  refine ⟨before, seq, payload, after, htrace, hafter, ?_, fun front bytes rest hsplit => ?_,
    hunacknowledged hbusy before seq payload after htrace hseq⟩
  · have hle := hthrough.inv.retries_le
    omega
  · exact htransmits.spaced.waited (hwaited hfinal) hsplit

/-- Every timeout comes behind the last transmission. -/
def Timeouts (s : Reliable T C W E N) : Prop :=
  ∀ before after, s.trace = before ++ .timedOut :: after → GivenUp s.config before

theorem Timeouts.beat (hvisited : Visited Act s) (hunacknowledged : Unacknowledged s)
    (h : Timeouts s) (hbeat : Beat Act s s') : Timeouts s' := by
  -- what adds no timeout
  have hgrow : ∀ {s' : Reliable T C W E N}, s'.config = s.config →
      Adds (fun event => event ≠ Event.timedOut) s s' → Timeouts s' := by
    rintro s' hconfig ⟨events, htrace, hnone⟩ before after hsplit
    rw [htrace] at hsplit
    rw [hconfig]
    rcases split_append hsplit with ⟨rest, hold, -⟩ | ⟨front, -, rfl⟩
    · exact h before rest hold
    · exact absurd rfl (hnone .timedOut (by simp))
  have hthrough := hvisited.through covers_act
  rcases hbeat.apart_or with ⟨-, hact⟩ | ⟨_, _, _, _, -, rfl⟩ | ⟨hadds, hsame⟩
  · rcases hact.timedOut_or with ⟨htx, hfinal, hretries, htrace, hconfig⟩ | hadds
    · intro before after hsplit
      rw [htrace] at hsplit
      rw [hconfig]
      rcases split_concat hsplit with ⟨rest, hold, -⟩ | ⟨rfl, -, -⟩
      · exact h before rest hold
      · exact hvisited.transmits.givenUp hthrough hvisited.numbered hunacknowledged htx hfinal
          hretries
    · exact hgrow (hact.turns hthrough.inv).inner.config hadds
  · exact hgrow rfl (.of_snoc rfl (by simp))
  · obtain ⟨_, _, _, _, _, _, _, -, rfl⟩ := hsame
    refine hgrow rfl (hadds.mono fun event hapart heq => ?_)
    subst heq
    cases hapart

theorem Visited.unacknowledged (h : Visited Act s) : Unacknowledged s :=
  h.keep (fun _ _ _ hflight => absurd rfl hflight) fun hvisited hold hbeat =>
    hold.beat (hvisited.through covers_act).inv hvisited.numbered hbeat

theorem Visited.timeouts (h : Visited Act s) : Timeouts s :=
  h.keep (fun _ _ _ before after hsplit => by simp [initial] at hsplit) fun hvisited hold hbeat =>
    hold.beat hvisited hvisited.unacknowledged hbeat

/-- When packets are sent again, and when the connection gives up, by a clock. -/
structure Retransmission (s : Reliable T C W E N) (clock : Nat → Nat) : Prop where
  /-- Between two transmissions of a packet the first one is written and flushed, and the time to
  retransmit passes. -/
  spaced : ∀ seq before bytes mid bytes' after,
    s.trace = before ++ .started .data seq bytes :: (mid ++ .started .data seq bytes' :: after) →
      transmissions seq mid = 0 →
        Elapsed clock s.config.retransmitTimeout before.length bytes mid
  bound : ∀ seq, transmissions seq s.trace ≤ s.config.maxRetries.toNat + 1
  /-- The counter of the packet in flight counts its own transmissions only. -/
  retries : ∀ seq, seq.toNat + 1 = s.txNext → s.tx ≠ .idle →
    transmissions seq s.trace = s.txRetries + if s.tx = .queued then 0 else 1
  /-- At a timeout the last accepted packet was transmitted as often as possible, every time for long
  enough, and was not acknowledged. -/
  timeout : ∀ before after, s.trace = before ++ .timedOut :: after →
    ∃ front seq payload rest, before = front ++ .queued seq payload :: rest ∧ queuedSeqs rest = [] ∧
      transmissions seq before = s.config.maxRetries.toNat + 1 ∧
        (∀ front bytes rest, before = front ++ .started .data seq bytes :: rest →
          Elapsed clock s.config.retransmitTimeout front.length bytes rest) ∧
            .parsed (.ack s.config.session seq) ∉ rest
  raised : .timeout ∈ errors s.trace → .timedOut ∈ s.trace

variable [Waker W] [Transport T W E] [Timer C W]

theorem Reachable.retransmission (h : Reachable s) {clock : Nat → Nat}
    (hclock : Clock s.trace clock) : Retransmission s clock := by
  have hvisited := h.visited covers_act
  have htransmits := hvisited.transmits
  refine ⟨fun seq before bytes mid bytes' after htrace hmid => ?_, htransmits.spaced.bound,
    fun seq hseq hbusy => ?_, fun before after htrace => ?_, fun hmem => ?_⟩
  · exact hclock.elapsed htrace (htransmits.spaced.between _ _ _ _ _ _ htrace hmid)
  · have hflight := htransmits.flight seq hseq
    cases htx : s.tx with
    | idle => exact absurd htx hbusy
    | _ =>
        simp only [InFlight, htx] at hflight
        exact hflight.1
  · obtain ⟨front, seq, payload, rest, rfl, hrest, hcount, hwaited, hnone⟩ :=
      hvisited.timeouts before after htrace
    refine ⟨front, seq, payload, rest, rfl, hrest, hcount, fun front' bytes after' hsplit => ?_, hnone⟩
    have hsent : s.trace = front' ++ .started .data seq bytes :: (after' ++ .timedOut :: after) := by
      rw [htrace, hsplit, List.append_assoc, List.cons_append]
    exact hclock.elapsed hsent (hwaited front' bytes after' hsplit)
  · -- only a timeout causes this error
    have hcause : .timeout ∈ causes s.trace := Failures.mem_causes h.blame hmem (by simp)
    obtain ⟨event, hevent, hcause⟩ := List.mem_filterMap.mp hcause
    unfold Event.cause? at hcause
    split at hcause <;> first | exact hevent | cases hcause

omit [Target] in
/-- A packet is written, transmitted three times and given up. -/
theorem retransmission_exhausted : letI := target64
    ∃ s clock, (testConnection []).callsAt
        [(0, .write 1 [5]), (10, .progress 1), (20, .progress 1), (30, .progress 1)] = some s ∧
      transmissions 0 s.trace = 3 ∧ errors s.trace = [.timeout] ∧ Clock s.trace clock ∧
        Retransmission s clock := by
  let := target64
  obtain ⟨s, hs⟩ := Option.isSome_iff_exists.mp (show ((testConnection []).callsAt
    [(0, .write 1 [5]), (10, .progress 1), (20, .progress 1), (30, .progress 1)]).isSome by
      decide +kernel)
  let clock : Nat → Nat := fun n =>
    if n < 22 then 0 else if n < 45 then 10 else if n < 68 then 20 else 30
  have hstate : ((testConnection []).callsAt
      [(0, .write 1 [5]), (10, .progress 1), (20, .progress 1), (30, .progress 1)]).map
        (fun s => (transmissions 0 s.trace, errors s.trace,
          s.trace.zipIdx.all fun event => event.1.tells (clock event.2))) =
            some (3, [.timeout], true) := by
    decide +kernel
  rw [hs] at hstate
  obtain ⟨hcount, hrest⟩ := Prod.mk.inj (Option.some.inj hstate)
  obtain ⟨herrors, htells⟩ := Prod.mk.inj hrest
  have hclock : Clock s.trace clock := by
    refine ⟨fun a b hle => ?_, fun n event hevent => ?_⟩
    · show (if a < 22 then 0 else _) ≤ (if b < 22 then 0 else _)
      split_ifs <;> omega
    · exact List.all_eq_true.mp htells (event, n) (List.mem_zipIdx_iff_getElem?.mpr hevent)
  have hreachable : s.Reachable := ⟨_, _, _, testConnection [], rfl, run_of_callsAt hs⟩
  exact ⟨s, clock, hs, hcount, herrors, hclock, hreachable.retransmission hclock⟩

end Runs

end Reliable

end CobsIoAsync.Connection
