import CobsIoAsync.Connection.Effort
import CobsIoAsync.Network.Fifo

/-!
# Network.Traffic — what two connections send

Over links that lose nothing and add nothing, everything that is ever sent in either direction is
bounded by the packets that were accepted: a packet is transmitted as often as the configuration
allows, and every acknowledgement answers a transmission.
-/

namespace CobsIoAsync.Connection

open Reasoning Protocol

variable {T C W E : Type} {N : Nat}
variable {T' C' W' E' : Type} {N' : Nat}

/-! ## Acknowledgements answer packets -/

def holdsData : Packet → Bool
  | .data .. => true
  | .ack .. => false

/-- The number of data packets that were parsed. -/
def dataParsed (trace : List (Event W E)) : Nat := (parsed trace).countP holdsData

theorem dataParsed_append (t u : List (Event W E)) :
    dataParsed (t ++ u) = dataParsed t + dataParsed u := by
  rw [dataParsed, parsed_append, List.countP_append]
  rfl

namespace Reliable

variable {s s' : Reliable T C W E N}
variable [Target]

/-- Only packets that were parsed are taken. -/
def Taken (s : Reliable T C W E N) : Prop :=
  takenCount N s.config.session 0 s.trace ≤ dataParsed s.trace

theorem Taken.grow (h : Taken s) {events : List (Event W E)}
    (htrace : s'.trace = s.trace ++ events) (hconfig : s'.config = s.config)
    (hmore : takenCount N s.config.session (retained s.trace).length events ≤ dataParsed events) :
    Taken s' := by
  unfold Taken at h ⊢
  rw [htrace, hconfig, takenCount_append, dataParsed_append, Nat.zero_add]
  exact Nat.add_le_add h hmore

theorem Taken.of_adds (h : Taken s) (hconfig : s'.config = s.config)
    (hadds : Adds (fun event => event.input = false) s s') : Taken s' := by
  obtain ⟨events, htrace, hevents⟩ := hadds
  refine h.grow htrace hconfig ((Nat.le_of_eq ?_).trans (Nat.zero_le _))
  refine takenCount_eq_zero fun front event back hsplit => ?_
  have := hevents event (by simp [hsplit])
  cases event <;> simp_all [Event.input, Event.takes]

/-- A packet that is parsed is taken at most once. -/
theorem Taken.take (h : Taken s) (hcounts : Counts s) {packet : Packet}
    (htake : Take (s.log (.parsed packet)) packet s') : Taken s' := by
  have hrx := hcounts.rxNext
  generalize hlog : s.log (.parsed packet) = t at htake
  have htrace : t.trace = s.trace ++ [Event.parsed packet] := by rw [← hlog]; rfl
  have hconfig : t.config = s.config := by rw [← hlog]; rfl
  have hnext : t.rxNext = s.rxNext := by rw [← hlog]; rfl
  have hsame : Taken t := by
    refine h.grow htrace hconfig ?_
    cases packet with
    | ack => simp [takenCount, Event.takes]
    | data session seq payload =>
        simp only [takenCount, dataParsed, parsed_singleton, Event.parsed?, Option.toList_some,
          holdsData, List.countP_singleton, if_true, Nat.add_zero]
        split <;> omega
  cases htake with
  | release => exact hsame.grow rfl rfl (by simp [takenCount, Event.takes])
  | retain seq payload rxPayload hlen hseq hempty hpayload =>
      -- it is the next packet, so it does not repeat the last one
      have hfresh : ¬seq.toNat + 1 = (retained s.trace).length := by omega
      have hretained : t.trace ++ [.retained seq payload] = s.trace ++
          [.parsed (.data t.config.session seq payload), .retained seq payload] := by simp [htrace]
      refine h.grow hretained hconfig ?_
      simp [takenCount, Event.takes, hfresh, dataParsed, parsed, Event.parsed?, holdsData]
  | _ => exact hsame

theorem Taken.processFrame (h : Taken s) (hcounts : Counts s) {body : List UInt8}
    (hframe : ProcessFrame s body s') : Taken s' := by
  have hbody : ∀ scratch, Taken { s.log (.frame body) with scratch } := fun scratch =>
    h.grow (show _ = s.trace ++ [.frame body] from rfl) rfl (by simp [takenCount, Event.takes])
  have hdecoded : ∀ scratch packet,
      Taken ({ s.log (.frame body) with scratch }.log (.decoded packet)) := fun scratch packet =>
    (hbody scratch).grow rfl rfl (by simp [takenCount, Event.takes])
  cases hframe with
  | undecodable => exact hbody _
  | unparsable => exact hdecoded _ _
  | @parsed decoded scratch _ _ hdecode hparse htake =>
      have hcounted := hcounts.move (.turn (.note s (.frame body) rfl))
      have hcounted' : Counts { s.log (.frame body) with scratch } := ⟨hcounted.1, hcounted.2⟩
      exact (hdecoded _ _).take (hcounted'.move (.turn (.note _ _ rfl))) htake

theorem Taken.beat (h : Taken s) (hthrough : Inv s ∧ Counts s) (hbeat : Beat Act s s') :
    Taken s' := by
  rcases hbeat.apart_or with ⟨-, hact⟩ | ⟨_, _, _, _, -, rfl⟩ | hapart
  · rcases hact.frame_or with ⟨body, -, -, -, hframe⟩ | hadds
    · exact h.processFrame hthrough.2 hframe
    · exact h.of_adds (hact.turns hthrough.1).inner.config hadds
  · exact h.of_adds rfl (.of_snoc rfl rfl)
  · obtain ⟨hadds, _, _, _, _, _, _, _, -, rfl⟩ := hapart
    refine h.of_adds rfl (hadds.mono fun event hevent => ?_)
    cases event <;> simp_all [Event.apart, Event.aside, Event.input]

variable [Waker W] [Transport T W E] [Timer C W]

/-- Every acknowledgement answers a packet that was parsed. -/
theorem Reachable.acks_le (h : Reachable s) : acks s.trace ≤ dataParsed s.trace := by
  have hvisited := h.visited covers_act
  have htaken : Taken s := hvisited.keep (fun _ _ _ => Nat.le_refl _) fun hvisited hs hbeat => by
    have hthrough := hvisited.through covers_act
    exact hs.beat ⟨hthrough.inv, hthrough.history.counts⟩ hbeat
  exact hvisited.acknowledges.count.trans htaken

end Reliable

/-! ## Over links that lose nothing -/

/-- A list that is made of pieces of two kinds, with a bound for the pieces of each kind. -/
theorem length_flatMap_le {α β : Type} {l : List α} {f : α → List β} {p : α → Bool} {m n : Nat}
    (h : ∀ x ∈ l, (f x).length ≤ if p x then m else n) :
    (l.flatMap f).length ≤ m * l.countP p + n * l.countP (fun x => !p x) := by
  induction l with
  | nil => simp
  | cons x l ih =>
      have hx := h x List.mem_cons_self
      have hl := ih fun y hy => h y (List.mem_cons_of_mem x hy)
      rw [List.flatMap_cons, List.length_append, List.countP_cons, List.countP_cons]
      cases hp : p x <;> simp only [hp, if_true, Bool.false_eq_true, if_false, Bool.not_true,
        Bool.not_false, Nat.mul_add, Nat.mul_one, Nat.add_zero] at hx ⊢ <;> omega

def Sent.isData (f : Sent) : Bool := f.frame = .data

theorem transmitted_eq (trace : List (Event W E)) :
    transmitted trace = (startedFrames trace).countP Sent.isData := by
  rw [transmitted, startedFrames, List.countP_filterMap]
  refine List.countP_congr fun event _ => ?_
  cases event with
  | started kind => cases kind <;> simp [Event.transmits, Event.started?, Sent.isData]
  | _ => simp [Event.transmits, Event.started?]

theorem acks_eq (trace : List (Event W E)) :
    acks trace = (startedFrames trace).countP fun f => !f.isData := by
  refine List.countP_congr fun f _ => ?_
  cases hkind : f.frame <;> simp [hkind, Sent.isData]

section Links

open Reliable

variable {a : Reliable T C W E N} {b : Reliable T' C' W' E' N'}
variable [Target] [Waker W] [Transport T W E] [Timer C W] [Waker W'] [Transport T' W' E']
  [Timer C' W']

/-- A frame hands over at most one packet, and a data packet only if it is a data frame. -/
theorem Reliable.Reachable.length_packets_le (ha : a.Reachable) {f : Sent}
    (hf : f ∈ startedFrames a.trace) :
    ((f.packets N').filter holdsData).length ≤ if f.isData then 1 else 0 := by
  obtain ⟨kind, seq, bytes⟩ := f
  obtain ⟨before, after, htrace⟩ := mem_startedFrames hf
  cases kind with
  | ack =>
      rw [Sent.packets, ha.started_ack htrace, packets_of_frame (parse_ack _ _)]
      split <;> simp [holdsData]
  | data =>
      obtain ⟨payload, -, -, hne, -, hbytes⟩ := ha.started_data htrace
      rw [Sent.packets, hbytes, packets_of_frame (parse_data _ _ hne)]
      refine (List.length_filter_le ..).trans ?_
      split <;> simp [Sent.isData]

/-- Every data packet that arrives was transmitted. -/
theorem Reliable.Reachable.dataParsed_le (ha : a.Reachable) (hb : b.Reachable)
    (h : received b.trace <+: accepted a.trace) : dataParsed b.trace ≤ transmitted a.trace := by
  calc dataParsed b.trace
      ≤ ((startedFrames a.trace).flatMap (Sent.packets N')).countP holdsData :=
        (ha.parsed_prefix hb h).sublist.countP_le
    _ = ((startedFrames a.trace).flatMap fun f => (f.packets N').filter holdsData).length := by
        rw [List.countP_eq_length_filter, List.filter_flatMap]
    _ ≤ transmitted a.trace := by
        rw [transmitted_eq]
        simpa using length_flatMap_le fun f hf => ha.length_packets_le hf

/-- What a connection sends is made of frames, none of which is longer than its buffer. -/
theorem Reliable.Reachable.accepted_le (ha : a.Reachable) : (accepted a.trace).length ≤
    N * transmitted a.trace + ackFrameLen * acks a.trace := by
  refine ha.accepted_prefix.length_le.trans ?_
  rw [transmitted_eq, acks_eq]
  refine length_flatMap_le fun f hf => ?_
  obtain ⟨kind, seq, bytes⟩ := f
  obtain ⟨before, after, htrace⟩ := mem_startedFrames hf
  cases kind with
  | ack => exact ha.started_ack htrace ▸ length_ack_frame_le _ _
  | data =>
      obtain ⟨payload, -, -, -, hlen, hbytes⟩ := ha.started_data htrace
      have hfits := ha.sound.fits
      exact hbytes ▸ length_data_frame_le hfits.maxPayload_eq hfits.maxPayload_pos _ _ hlen

end Links

/-- The number of transmissions that the configuration allows for the packets that were accepted. -/
def Reliable.sendable (s : Reliable T C W E N) : Nat :=
  (queued s.trace).length * (s.config.maxRetries.toNat + 1)

namespace Fifo

variable {p : Peers T C W E N T' C' W' E' N'}
variable [Target] [Waker W] [Transport T W E] [Timer C W] [Waker W'] [Transport T' W' E']
  [Timer C' W']

/-- What the left one of two connections has sent, in terms of the packets that were accepted. -/
structure Traffic (p : Peers T C W E N T' C' W' E' N') : Prop where
  sends : transmitted p.a.trace ≤ p.a.sendable
  answers : acks p.a.trace ≤ transmitted p.b.trace
  frames : (startedFrames p.a.trace).length ≤ p.a.sendable + p.b.sendable
  bytes : (accepted p.a.trace).length ≤ N * p.a.sendable + ackFrameLen * p.b.sendable

theorem Reachable.traffic_left (h : Reachable p) : Traffic p := by
  have hsound := h.trusting.sound
  have hsends := hsound.left.transmitted_le
  have hsent := hsound.right.transmitted_le
  have hanswers := hsound.left.acks_le.trans
    (hsound.right.dataParsed_le hsound.left h.received.1)
  refine ⟨hsends, hanswers, ?_, hsound.left.accepted_le.trans ?_⟩
  · rw [Reliable.length_startedFrames]
    exact Nat.add_le_add hsends (hanswers.trans hsent)
  · exact Nat.add_le_add (Nat.mul_le_mul_left N hsends)
      (Nat.mul_le_mul_left ackFrameLen (hanswers.trans hsent))

/-- Over links that lose nothing, the packets that were accepted bound everything that is sent. -/
theorem Reachable.traffic (h : Reachable p) : Traffic p ∧ Traffic p.swap :=
  ⟨h.traffic_left, h.swap.traffic_left⟩

omit [Target] in
/-- A packet in each direction takes two frames of each side. -/
theorem traffic_crossing : letI := target64
    ∃ p, Peers.play .fifo [.a (.write 1 [5]), .b (.write 1 [6]), .carry, .b (.read 2 [0]),
      .a (.read 2 [0]), .carry, .b (.progress 1), .a (.progress 1)] = some p ∧
        (startedFrames p.a.trace).length = 2 ∧ (startedFrames p.b.trace).length = 2 ∧
          Traffic p ∧ Traffic p.swap := by
  let := target64
  let actions : List Peers.Action := [.a (.write 1 [5]), .b (.write 1 [6]), .carry,
    .b (.read 2 [0]), .a (.read 2 [0]), .carry, .b (.progress 1), .a (.progress 1)]
  have hstate : (Peers.play .fifo actions).map (fun p => ((startedFrames p.a.trace).length,
      (startedFrames p.b.trace).length)) = some (2, 2) := by
    decide +kernel
  obtain ⟨p, hp, hstate⟩ := Option.map_eq_some_iff.mp hstate
  obtain ⟨hleft, hright⟩ := Prod.mk.inj hstate
  exact ⟨p, hp, hleft, hright, Reachable.traffic (Peers.play_reachable hp)⟩

end Fifo

end CobsIoAsync.Connection
