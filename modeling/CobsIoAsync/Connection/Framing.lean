import CobsIoAsync.Connection.Invariant
import CobsIoAsync.Reasoning.Segments

/-!
# Connection.Framing — what becomes of the bytes that are read

The frames that are processed are determined by the bytes alone: neither the cuts between two
reads nor anything that happens in between matters.  What a frame does depends on the state of the
protocol and on its bytes, so that bytes without a packet do nothing.
-/

namespace CobsIoAsync.Connection

open Reasoning Protocol

variable {T C W E : Type} {N : Nat}

namespace Reliable

variable {s s' s'' : Reliable T C W E N}
variable [Target]

/-! ## Frames -/

/-- What a connection made of everything it received: the frames it processed, and the tail that
is in its buffer or, when it is too long, discarded. -/
structure Framing (s : Reliable T C W E N) : Prop where
  frames_eq : frames s.trace = Segments.frames 0 N (received s.trace)
  kept : (Segments.tail 0 (received s.trace)).length < N →
    s.rxDiscarding = false ∧ s.buffered = Segments.tail 0 (received s.trace)
  overflowed : N ≤ (Segments.tail 0 (received s.trace)).length →
    s.rxDiscarding = true ∧ s.rxLen = 0

theorem ProcessSegment.frames {segment : List UInt8} (h : ProcessSegment s segment s') :
    s'.rxDiscarding = false ∧ received s'.trace = received s.trace ∧
      frames s'.trace = frames s.trace ++
        if s.rxDiscarding = false ∧ segment ≠ [] then [segment] else [] := by
  cases h with
  | resync hdiscarding => simp [hdiscarding]
  | frame hdiscarding hne hframe =>
      have hsame := hframe.sameInput
      refine ⟨hsame.rxDiscarding.trans hdiscarding, ?_, ?_⟩
      · simpa [Event.receivedBytes] using hsame.received
      · simpa [Event.frame?, hdiscarding, hne] using hsame.frames
  | skip hdiscarding hempty => simp [hdiscarding, hempty]

/-- Processing the buffer behind a delimiter, or while bytes are discarded. -/
theorem ProcessInput.framing (h : ProcessInput s s') (hlen : s.rxLen ≤ N) (front : List UInt8)
    (hreceived : received s.trace = front ++ s.buffered)
    (hframes : frames s.trace = Segments.frames 0 N front)
    (hfront : s.rxDiscarding = false ∧ Segments.tail 0 front = [] ∨
      s.rxDiscarding = true ∧ N ≤ (Segments.tail 0 front).length) : Framing s' := by
  induction h generalizing front with
  | rest s hzero hdiscarding hfull =>
      have htail : Segments.tail 0 front = [] := by simpa [hdiscarding] using hfront
      have hbuffered := (Segments.append_of_notMem front hzero).2
      rw [htail, List.nil_append, ← hreceived] at hbuffered
      have hlength := length_buffered hlen
      refine ⟨?_, fun _ => ⟨hdiscarding, hbuffered.symm⟩, fun hover => ?_⟩
      · rw [hframes, hreceived, Segments.frames_append_of_notMem _ _ hzero]
      · rw [hbuffered] at hover
        omega
  | overflow s hzero hfull =>
      have hbuffered := (Segments.append_of_notMem front hzero).2
      rw [← hreceived] at hbuffered
      have hlength := length_buffered hlen
      refine ⟨?_, fun hshort => ?_, fun _ => ⟨rfl, rfl⟩⟩
      · rw [hframes, hreceived, Segments.frames_append_of_notMem _ _ hzero]
      · simp only [hbuffered, List.length_append] at hshort
        rcases hfull with hdiscarding | hfull
        · simp only [hdiscarding, reduceCtorEq, false_and, true_and, false_or] at hfront
          omega
        · omega
  | @segment s s₁ s' segment tail rxBuf hbuffered hzero htail hsegment hrest ih =>
      obtain ⟨hdiscarding₁, hreceived₁, hframes₁⟩ := hsegment.frames
      have hlength := congrArg List.length hbuffered
      rw [length_buffered hlen, List.length_append, List.length_cons] at hlength
      -- The segment's bytes and its delimiter join what was framed before.
      refine ih (by simp only; omega) (front ++ segment ++ [0]) ?_ ?_
        (.inl ⟨hdiscarding₁, (Segments.append_segment front hzero).2⟩)
      · rw [hreceived₁, hreceived, hbuffered]
        simp [buffered, htail]
      · rw [hframes₁, hframes, Segments.frames_append_segment _ _ hzero]
        rcases hfront with ⟨hdiscarding, hfront⟩ | ⟨hdiscarding, hfront⟩
        · simp only [hdiscarding, hfront, true_and, List.nil_append,
            show segment.length < N by omega, and_true]
        · have hlong : ¬(Segments.tail 0 front ++ segment).length < N := by
            rw [List.length_append]
            omega
          rw [if_neg (fun h => by simp [hdiscarding] at h), if_neg (fun h => hlong h.2)]

/-- A receive keeps the framing. -/
theorem Framing.receive (hsettled : Settled s) (h : Framing s) (hreceive : Receive s s') :
    Framing s' := by
  cases hreceive with
  | same hbuffered hlen hdiscarding hreceived hframes =>
      refine ⟨?_, ?_, ?_⟩
      · rw [hframes, hreceived, h.frames_eq]
      · rw [hreceived, hdiscarding, hbuffered]
        exact h.kept
      · rw [hreceived, hdiscarding, hlen]
        exact h.overflowed
  | read bytes hroom hlen hbuffered hdiscarding hreceived hframes hprocess =>
      have hle := hsettled.rxLen_lt
      -- What is buffered is the tail of the stream while it fits, and nothing once it overflowed.
      by_cases hshort : (Segments.tail 0 (received s.trace)).length < N
      · obtain ⟨hkept, htail⟩ := h.kept hshort
        obtain ⟨front, hfront, hnil, hsegments, -⟩ := Segments.exists_front (d := 0) (received s.trace)
        refine hprocess.framing (by omega) front ?_ ?_ (.inl ⟨hdiscarding.trans hkept, hnil⟩)
        · rw [hreceived, hbuffered, htail, ← List.append_assoc, ← hfront]
        · rw [hframes, h.frames_eq, Segments.frames, ← hsegments, Segments.frames]
      · have hlong := Nat.not_lt.mp hshort
        obtain ⟨hover, hempty⟩ := h.overflowed hlong
        refine hprocess.framing (by omega) (received s.trace) ?_
          (hframes.trans h.frames_eq) (.inr ⟨hdiscarding.trans hover, hlong⟩)
        rw [hreceived, hbuffered, buffered, hempty]
        rfl

/-! ## Effects -/

/-- The packet in the bytes before a delimiter, if there is one. -/
def packetOf (N : Nat) (body : List UInt8) : Option Packet :=
  match Sync.decodeToSlice (body ++ [0]) (.zeros N) with
  | (.ok decoded, out) => (parse (out.toList.take decoded.len)).join
  | (.error _, _) => none

/-- Two states that differ at most in the receive buffer, the surroundings and the rest of an
allowance for final input. -/
def SameProtocol (s s' : Reliable T C W E N) : Prop :=
  ∃ transport rxBuf rxLen rxDiscarding scratch finalInput trace,
    finalInput.isSome = s.finalInput.isSome ∧
      s' = { s with transport, rxBuf, rxLen, rxDiscarding, scratch, finalInput, trace }

namespace SameProtocol

omit [Target]

theorem refl (s : Reliable T C W E N) : SameProtocol s s := ⟨_, _, _, _, _, _, _, rfl, rfl⟩

theorem symm (h : SameProtocol s s') : SameProtocol s' s := by
  obtain ⟨_, _, _, _, _, _, _, hfinal, rfl⟩ := h
  exact ⟨_, _, _, _, _, _, _, hfinal.symm, rfl⟩

theorem trans (h : SameProtocol s s') (h' : SameProtocol s' s'') : SameProtocol s s'' := by
  obtain ⟨_, _, _, _, _, _, _, hfinal, rfl⟩ := h
  obtain ⟨_, _, _, _, _, _, _, hfinal', rfl⟩ := h'
  exact ⟨_, _, _, _, _, _, _, hfinal'.trans hfinal, rfl⟩

theorem config (h : SameProtocol s s') : s'.config = s.config := by
  obtain ⟨_, _, _, _, _, _, _, -, rfl⟩ := h
  rfl

end SameProtocol

/-- The same packet does the same to the same protocol. -/
theorem Take.unique {t t' : Reliable T C W E N} {packet : Packet} (h : Take s packet s')
    (h' : Take t packet t') (hsame : SameProtocol s t) : SameProtocol s' t' := by
  have hall := hsame
  obtain ⟨_, _, _, _, _, _, _, hfinal, rfl⟩ := hsame
  -- The guards of the cases exclude each other, so both sides take the packet the same way.
  cases h with
  | release seq htx hseq =>
      cases h' with
      | release => exact ⟨_, _, _, _, _, _, _, rfl, rfl⟩
      | stale _ _ hnot => exact absurd ⟨rfl, htx, hseq⟩ hnot
  | stale session seq hnot =>
      cases h' with
      | release seq htx hseq => exact absurd ⟨rfl, htx, hseq⟩ hnot
      | stale => exact hall
  | retain seq payload rxPayload hlen hseq hempty hpayload =>
      cases h' with
      | retain seq payload rxPayload' _ _ _ hpayload' =>
          obtain rfl : rxPayload' = rxPayload := Bytes.ext (hpayload'.trans hpayload.symm)
          exact ⟨_, _, _, _, _, _, _, hfinal, rfl⟩
      | again _ _ _ hrx hseq' => exact absurd hseq (by simp only at hseq' hrx; omega)
      | foreign _ _ _ hnot => exact absurd hnot (by simp; omega)
      | full _ _ _ _ hfull => exact absurd hempty hfull
      | unexpected _ _ _ hseq' => exact absurd hseq hseq'
  | again seq payload hlen hrx hseq hack =>
      cases h' with
      | retain seq payload rxPayload' _ hseq' => exact absurd hseq' (by simp only; omega)
      | again => exact ⟨_, _, _, _, _, _, _, hfinal, rfl⟩
      | foreign _ _ _ hnot => exact absurd hnot (by simp; omega)
      | full _ _ _ hseq' => exact absurd hseq' (by simp only; omega)
      | unexpected _ _ _ _ hnot => exact absurd ⟨hrx, hseq, hack⟩ hnot
  | foreign session seq payload hnot =>
      cases h' with
      | retain _ _ _ hlen => exact absurd hnot (by simp; omega)
      | again _ _ hlen => exact absurd hnot (by simp; omega)
      | _ => exact hall
  | full seq payload hlen hseq hfull =>
      cases h' with
      | retain _ _ _ _ _ hempty => exact absurd hempty hfull
      | again _ _ _ hrx hseq' => exact absurd hseq (by simp only at hseq' hrx; omega)
      | _ => exact hall
  | unexpected seq payload hlen hseq hnot =>
      cases h' with
      | retain _ _ _ _ hseq' => exact absurd hseq' hseq
      | again _ _ _ hrx hseq' hack => exact absurd ⟨hrx, hseq', hack⟩ hnot
      | _ => exact hall

theorem Take.config {packet : Packet} (h : Take s packet s') : s'.config = s.config := by
  cases h <;> rfl

/-- A packet of another session does nothing. -/
theorem Take.foreign_eq {packet : Packet} (h : Take s packet s')
    (hsession : packet.session ≠ s.config.session) : s' = s := by
  cases h with
  | release => exact absurd rfl hsession
  | retain => exact absurd rfl hsession
  | again => exact absurd rfl hsession
  | _ => rfl

/-- What a frame does to the protocol. -/
inductive Effect (body : List UInt8) (s s' : Reliable T C W E N) : Prop
  | nothing (hnone : packetOf N body = none) (hsame : SameProtocol s s')
  | packet {packet : Packet} {s₁ s₂ : Reliable T C W E N} (hpacket : packetOf N body = some packet)
      (hbefore : SameProtocol s s₁) (htake : Take s₁ packet s₂) (hafter : SameProtocol s₂ s')

/-- What frames do to the protocol, one after the other. -/
def Effects : List (List UInt8) → Reliable T C W E N → Reliable T C W E N → Prop
  | [], s, s' => SameProtocol s s'
  | body :: bodies, s, s' => ∃ s₁, Effect body s s₁ ∧ Effects bodies s₁ s'

omit [Target] in
/-- The decoder does not read the scratch buffer, so a frame has one packet. -/
theorem packetOf_eq (body : List UInt8) (scratch : Bytes N) :
    packetOf N body = match Sync.decodeToSlice (body ++ [0]) scratch with
      | (.ok decoded, out) => (parse (out.toList.take decoded.len)).join
      | (.error _, _) => none := by
  have hagree := Codec.decodeSlice_agree (body ++ [0]) scratch (Bytes.zeros N)
  simp only [packetOf, Sync.decodeToSlice]
  generalize Codec.decodeSlice (body ++ [0]) scratch = r at hagree ⊢
  generalize Codec.decodeSlice (body ++ [0]) (Bytes.zeros N) = r' at hagree ⊢
  obtain ⟨result, out⟩ := r
  obtain ⟨result', out'⟩ := r'
  obtain ⟨rfl, hbytes⟩ := hagree
  cases result with
  | error => rfl
  | ok decoded => simp only [hbytes decoded rfl]

theorem ProcessFrame.effect {body : List UInt8} (h : ProcessFrame s body s') :
    Effect body s s' := by
  have hpacket := packetOf_eq body s.scratch
  cases h with
  | undecodable hdecode =>
      rw [hdecode] at hpacket
      exact .nothing hpacket ⟨_, _, _, _, _, _, _, rfl, rfl⟩
  | unparsable hdecode hparse =>
      rw [hdecode] at hpacket
      simp only [hparse, Option.join_some] at hpacket
      exact .nothing hpacket ⟨_, _, _, _, _, _, _, rfl, rfl⟩
  | parsed hdecode hparse htake =>
      rw [hdecode] at hpacket
      simp only [hparse, Option.join_some] at hpacket
      exact .packet hpacket ⟨_, _, _, _, _, _, _, rfl, rfl⟩ htake (.refl _)

namespace Effect

variable {t t' : Reliable T C W E N} {body : List UInt8}

theorem unique (h : Effect body s s') (h' : Effect body t t') (hsame : SameProtocol s t) :
    SameProtocol s' t' := by
  cases h with
  | nothing hnone h =>
      cases h' with
      | nothing _ h' => exact (h.symm.trans hsame).trans h'
      | packet hpacket => simp [hnone] at hpacket
  | packet hpacket hbefore htake hafter =>
      cases h' with
      | nothing hnone => simp [hnone] at hpacket
      | packet hpacket' hbefore' htake' hafter' =>
          obtain rfl := Option.some.inj (hpacket.symm.trans hpacket')
          have hstart := (hbefore.symm.trans hsame).trans hbefore'
          exact (hafter.symm.trans (htake.unique htake' hstart)).trans hafter'

theorem config (h : Effect body s s') : s'.config = s.config := by
  cases h with
  | nothing _ hsame => exact hsame.config
  | packet _ hbefore htake hafter => rw [hafter.config, htake.config, hbefore.config]

/-- A frame without a packet of the session does nothing. -/
theorem of_junk (h : Effect body s s')
    (hjunk : ∀ packet, packetOf N body = some packet → packet.session ≠ s.config.session) :
    SameProtocol s s' := by
  cases h with
  | nothing _ hsame => exact hsame
  | packet hpacket hbefore htake hafter =>
      obtain rfl := htake.foreign_eq (hbefore.config ▸ hjunk _ hpacket)
      exact hbefore.trans hafter

theorem same_left (h : Effect body s' s'') (hsame : SameProtocol s s') : Effect body s s'' := by
  cases h with
  | nothing hnone h => exact .nothing hnone (hsame.trans h)
  | packet hpacket hbefore htake hafter =>
      exact .packet hpacket (hsame.trans hbefore) htake hafter

end Effect

namespace Effects

variable {t t' : Reliable T C W E N} {bodies bodies' : List (List UInt8)}

theorem same_left (h : Effects bodies s' s'') (hsame : SameProtocol s s') :
    Effects bodies s s'' := by
  cases bodies with
  | nil => exact hsame.trans h
  | cons body bodies =>
      obtain ⟨s₁, heffect, hrest⟩ := h
      exact ⟨s₁, heffect.same_left hsame, hrest⟩

theorem append : Effects (bodies ++ bodies') s s'' ↔
    ∃ s', Effects bodies s s' ∧ Effects bodies' s' s'' := by
  induction bodies generalizing s with
  | nil =>
      constructor
      · exact fun h => ⟨s, .refl s, h⟩
      · rintro ⟨s', hsame, h⟩
        exact h.same_left hsame
  | cons body bodies ih =>
      constructor
      · rintro ⟨s₁, heffect, hrest⟩
        obtain ⟨s', h, h'⟩ := ih.mp hrest
        exact ⟨s', ⟨s₁, heffect, h⟩, h'⟩
      · rintro ⟨s', ⟨s₁, heffect, h⟩, h'⟩
        exact ⟨s₁, heffect, ih.mpr ⟨s', h, h'⟩⟩

theorem unique (h : Effects bodies s s') (h' : Effects bodies t t') (hsame : SameProtocol s t) :
    SameProtocol s' t' := by
  induction bodies generalizing s t with
  | nil => exact (SameProtocol.trans (SameProtocol.symm h) hsame).trans h'
  | cons body bodies ih =>
      obtain ⟨s₁, heffect, hrest⟩ := h
      obtain ⟨t₁, heffect', hrest'⟩ := h'
      exact ih hrest hrest' (heffect.unique heffect' hsame)

theorem config (h : Effects bodies s s') : s'.config = s.config := by
  induction bodies generalizing s with
  | nil => exact SameProtocol.config h
  | cons body bodies ih =>
      obtain ⟨s₁, heffect, hrest⟩ := h
      rw [ih hrest, heffect.config]

theorem of_junk (h : Effects bodies s s') (hjunk : ∀ body ∈ bodies, ∀ packet,
    packetOf N body = some packet → packet.session ≠ s.config.session) : SameProtocol s s' := by
  induction bodies generalizing s with
  | nil => exact h
  | cons body bodies ih =>
      obtain ⟨s₁, heffect, hrest⟩ := h
      have hfirst := heffect.of_junk (hjunk body (by simp))
      refine hfirst.trans (ih hrest fun body' hbody' => ?_)
      rw [heffect.config]
      exact hjunk body' (by simp [hbody'])

end Effects

/-- Processing the buffer has the effects of the frames that it finds. -/
theorem ProcessInput.effects (h : ProcessInput s s') :
    ∃ bodies, frames s'.trace = frames s.trace ++ bodies ∧ Effects bodies s s' := by
  induction h with
  | rest s => exact ⟨[], by simp, .refl s⟩
  | overflow s => exact ⟨[], by simp, ⟨_, _, _, _, _, _, _, rfl, rfl⟩⟩
  | @segment s s₁ s' segment tail rxBuf hbuffered hzero htail hsegment hrest ih =>
      obtain ⟨bodies, hframes, heffects⟩ := ih
      have hshift : SameProtocol s₁ { s₁ with rxBuf, rxLen := tail.length } :=
        ⟨_, _, _, _, _, _, _, rfl, rfl⟩
      have hframes₁ := hsegment.frames.2.2
      have heffects₁ := heffects.same_left hshift
      cases hsegment with
      | resync hdiscarding =>
          refine ⟨bodies, ?_, heffects₁.same_left ⟨_, _, _, _, _, _, _, rfl, rfl⟩⟩
          simpa using hframes
      | frame hdiscarding hne hframe =>
          rw [if_pos ⟨hdiscarding, hne⟩] at hframes₁
          exact ⟨segment :: bodies, by rw [hframes, hframes₁]; simp, s₁, hframe.effect, heffects₁⟩
      | skip => exact ⟨bodies, hframes, heffects₁⟩

theorem Input.effects {cx : W} {budget budget' : Budget} {work : Outcome E}
    (h : Input s cx budget work budget' s') :
    ∃ bodies, frames s'.trace = frames s.trace ++ bodies ∧ Effects bodies s s' := by
  cases h with
  | starved => exact ⟨[], by simp, .refl s⟩
  | read transport rxBuf count bytes _ _ _ _ hprocess =>
      obtain ⟨bodies, hframes, heffects⟩ := hprocess.effects
      refine ⟨bodies, ?_, heffects.same_left ⟨_, _, _, _, _, _, _, ?_, rfl⟩⟩
      · simpa [Event.frame?] using hframes
      · simp
  | _ => exact ⟨[], by simp [Event.frame?], ⟨_, _, _, _, _, _, _, rfl, rfl⟩⟩

/-! ## Runs -/

section Runs

theorem Framing.receives (hsettled : Settled s) (h : Framing s) (hreceives : Receives s s') :
    Framing s' := by
  have hboth := hreceives.keep (P := fun s => Settled s ∧ Framing s)
    (fun hboth hreceive => ⟨hboth.1.receive hreceive, hboth.2.receive hboth.1 hreceive⟩)
    ⟨hsettled, h⟩
  exact hboth.2

theorem framing_initial (hN : Fits N) (transport : T) (timer : C) (config : Config) :
    Framing (initial N transport timer config : Reliable T C W E N) := by
  have hpos := (settled_initial (W := W) (E := E) hN transport timer config).rxLen_lt
  refine ⟨rfl, fun _ => ⟨rfl, rfl⟩, fun hover => ?_⟩
  exact absurd hover (Nat.not_le.mpr hpos)

variable [Waker W] [Transport T W E] [Timer C W]

theorem Reachable.framing (h : Reachable s) : Framing s := by
  obtain ⟨transport, timer, config, s₀, hnew, hrun⟩ := h
  obtain ⟨hN, rfl⟩ := new_eq_ok.mp hnew
  exact (framing_initial hN transport timer config).receives
    (settled_initial hN transport timer config) (hrun.receives (.initial hN transport timer config))

/-- A run in which nothing but `poll_input` is called, over a link that may change in between. -/
inductive Polled (s : Reliable T C W E N) : Reliable T C W E N → Prop
  | refl : Polled s s
  | poll {s₁ s₂ : Reliable T C W E N} {cx : W} {budget budget' : Budget} {work : Outcome E}
      (h : Polled s s₁) (hpoll : s₁.pollInput cx budget = some (work, budget', s₂)) : Polled s s₂
  | environment {s₁ : Reliable T C W E N} (h : Polled s s₁) (transport : T) :
      Polled s { s₁ with transport }

omit [Waker W] [Timer C W] in
theorem Polled.effects (hN : Fits N) (hsettled : Settled s) (h : Polled s s') :
    Receives s s' ∧ ∃ bodies, frames s'.trace = frames s.trace ++ bodies ∧ Effects bodies s s' := by
  induction h with
  | refl => exact ⟨.refl s, [], by simp, .refl s⟩
  | poll _ hpoll ih =>
      obtain ⟨hreceives, bodies, hframes, heffects⟩ := ih
      have hlen := (hsettled.receives hreceives).rxLen_lt
      have hinput := (pollInput_returns hN (by omega) _ _).post hpoll
      obtain ⟨bodies', hframes', heffects'⟩ := hinput.effects
      exact ⟨hreceives.trans hinput.receives, bodies ++ bodies',
        by rw [hframes', hframes, List.append_assoc], Effects.append.mpr ⟨_, heffects, heffects'⟩⟩
  | environment _ transport ih =>
      obtain ⟨hreceives, bodies, hframes, heffects⟩ := ih
      refine ⟨hreceives.same ⟨rfl, rfl, rfl, rfl, rfl⟩, bodies ++ [],
        by rw [hframes, List.append_nil], Effects.append.mpr ⟨_, heffects, ?_⟩⟩
      exact ⟨_, _, _, _, _, _, _, rfl, rfl⟩

omit [Target] [Waker W] [Transport T W E] [Timer C W] in
/-- Two connections with the same tail hold the same bytes. -/
theorem Framing.same_buffer (h : Framing s) (h' : Framing s')
    (htail : Segments.tail 0 (received s.trace) = Segments.tail 0 (received s'.trace)) :
    s.buffered = s'.buffered ∧ s.rxDiscarding = s'.rxDiscarding := by
  by_cases hshort : (Segments.tail 0 (received s.trace)).length < N
  · obtain ⟨hkept, hbuffered⟩ := h.kept hshort
    obtain ⟨hkept', hbuffered'⟩ := h'.kept (htail ▸ hshort)
    exact ⟨by rw [hbuffered, hbuffered', htail], hkept.trans hkept'.symm⟩
  · obtain ⟨hover, hempty⟩ := h.overflowed (Nat.not_lt.mp hshort)
    obtain ⟨hover', hempty'⟩ := h'.overflowed (htail ▸ Nat.not_lt.mp hshort)
    exact ⟨by rw [buffered, hempty, buffered, hempty']; rfl, hover.trans hover'.symm⟩

/-- A stream that is empty or ends with a delimiter. -/
def AtDelimiter (stream : List UInt8) : Prop := stream = [] ∨ stream.getLast? = some 0

/-- Junk between two frames: delimited bytes, no frame of which is a packet of the session. -/
def Junk (N : Nat) (session : UInt64) (junk : List UInt8) : Prop :=
  AtDelimiter junk ∧ ∀ body ∈ Segments.frames 0 N junk, ∀ packet,
    packetOf N body = some packet → packet.session ≠ session

/-- Junk behind a delimiter changes nothing. -/
theorem Reachable.skips_junk (h : Reachable s) {s₁ s₂ : Reliable T C W E N}
    {x junk y : List UInt8} (h₁ : Polled s s₁) (h₂ : Polled s s₂)
    (hreceived₁ : received s₁.trace = received s.trace ++ x ++ y)
    (hreceived₂ : received s₂.trace = received s.trace ++ x ++ junk ++ y)
    (hx : AtDelimiter (received s.trace ++ x)) (hjunk : Junk N s.config.session junk) :
    SameProtocol s₁ s₂ ∧ s₁.buffered = s₂.buffered ∧ s₁.rxDiscarding = s₂.rxDiscarding := by
  obtain ⟨hreceives₁, bodies₁, hframes₁, heffects₁⟩ := h₁.effects h.sound.fits h.sound.settled
  obtain ⟨hreceives₂, bodies₂, hframes₂, heffects₂⟩ := h₂.effects h.sound.fits h.sound.settled
  have hframing₁ := h.framing.receives h.sound.settled hreceives₁
  have hframing₂ := h.framing.receives h.sound.settled hreceives₂
  have hxnil : Segments.tail 0 (received s.trace ++ x) = [] := Segments.tail_of_last hx
  have hjunknil : Segments.tail 0 junk = [] := Segments.tail_of_last hjunk.1
  obtain ⟨later, hlater⟩ := Segments.exists_frames_append (d := 0) N (received s.trace) x
  -- the same frames before and after, and those of the junk in between
  have hbodies₁ : bodies₁ = later ++ Segments.frames 0 N y := by
    rw [hframing₁.frames_eq, hreceived₁, Segments.frames_append_of_tail_nil N hxnil, hlater,
      h.framing.frames_eq, List.append_assoc] at hframes₁
    exact (List.append_cancel_left hframes₁).symm
  have hbodies₂ : bodies₂ = later ++ (Segments.frames 0 N junk ++ Segments.frames 0 N y) := by
    rw [hframing₂.frames_eq, hreceived₂, List.append_assoc (received s.trace ++ x),
      Segments.frames_append_of_tail_nil N hxnil, Segments.frames_append_of_tail_nil N hjunknil,
      hlater, h.framing.frames_eq, List.append_assoc] at hframes₂
    exact (List.append_cancel_left hframes₂).symm
  subst hbodies₁ hbodies₂
  obtain ⟨u₁, hfirst₁, hlast₁⟩ := Effects.append.mp heffects₁
  obtain ⟨u₂, hfirst₂, hrest₂⟩ := Effects.append.mp heffects₂
  obtain ⟨v₂, hmiddle₂, hlast₂⟩ := Effects.append.mp hrest₂
  have hskipped : SameProtocol u₂ v₂ := by
    refine hmiddle₂.of_junk fun body hbody packet hpacket => ?_
    rw [hfirst₂.config]
    exact hjunk.2 body hbody packet hpacket
  have hsame : SameProtocol u₁ v₂ := (hfirst₁.unique hfirst₂ (.refl s)).trans hskipped
  refine ⟨hlast₁.unique hlast₂ hsame, hframing₁.same_buffer hframing₂ ?_⟩
  rw [hreceived₁, hreceived₂, (Segments.append_of_tail_nil hxnil y).2, List.append_assoc,
    (Segments.append_of_tail_nil hxnil _).2, (Segments.append_of_tail_nil hjunknil y).2]

/-- The frames are those of the stream, a complete frame is always found, and junk behind a
delimiter changes nothing. -/
theorem Reachable.chunking (h : Reachable s) : Framing s ∧
    (∀ s' x body y, Run s s' → received s'.trace = received s.trace ++ x ++ [0] ++ body ++ [0] ++ y →
      0 ∉ body → body ≠ [] → body.length ≤ N - 1 →
        ∃ before after, frames s'.trace = frames s.trace ++ before ++ [body] ++ after) ∧
    ∀ s₁ s₂ x junk y, Polled s s₁ → Polled s s₂ →
      received s₁.trace = received s.trace ++ x ++ y →
      received s₂.trace = received s.trace ++ x ++ junk ++ y →
      AtDelimiter (received s.trace ++ x) → Junk N s.config.session junk →
        SameProtocol s₁ s₂ ∧ s₁.buffered = s₂.buffered ∧ s₁.rxDiscarding = s₂.rxDiscarding := by
  refine ⟨h.framing, fun s' x body y hrun hreceived hbody hne hlen => ?_,
    fun s₁ s₂ x junk y h₁ h₂ hreceived₁ hreceived₂ hx hjunk =>
      h.skips_junk h₁ h₂ hreceived₁ hreceived₂ hx hjunk⟩
  have hframing := h.framing.receives h.sound.settled (hrun.receives h.sound)
  have hpos := h.sound.settled.rxLen_lt
  obtain ⟨before, hbefore⟩ :=
    Segments.exists_frames_append (d := 0) N (received s.trace) (x ++ [0])
  obtain ⟨after, hafter⟩ := Segments.exists_frames_between N (received s.trace ++ x) hbody hne
    (show body.length < N by omega) y
  rw [List.append_assoc (received s.trace) x [0], hbefore, ← h.framing.frames_eq,
    ← List.append_assoc (received s.trace) x [0]] at hafter
  exact ⟨before, after, by rw [hframing.frames_eq, hreceived, hafter]⟩

omit [Target] in
/-- One frame and the beginning of the next one arrive with a single read. -/
theorem chunking_two : letI := target64
    ∃ s, (testConnection [0, 1, 2, 0, 3]).calls [.progress 1] = some s ∧
      frames s.trace = [[1, 2]] ∧ s.buffered = [3] ∧ Framing s := by
  let := target64
  obtain ⟨s, hs⟩ := Option.isSome_iff_exists.mp
    (show ((testConnection [0, 1, 2, 0, 3]).calls [.progress 1]).isSome by decide +kernel)
  have hstate : ((testConnection [0, 1, 2, 0, 3]).calls [.progress 1]).map
      (fun s => (frames s.trace, s.buffered)) = some ([[1, 2]], [3]) := by decide +kernel
  rw [hs] at hstate
  obtain ⟨hframes, hbuffered⟩ := Prod.mk.inj (Option.some.inj hstate)
  exact ⟨s, hs, hframes, hbuffered, (reachable_testConnection hs).chunking.1⟩

end Runs

end Reliable

end CobsIoAsync.Connection
