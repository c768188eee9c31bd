import CobsIoAsync.Connection.Acts
import CobsIoAsync.Connection.Link
import CobsIoAsync.Connection.Waiting

/-!
# Connection.Contract — the contract of the transport, from both sides

A connection never asks its transport to read into no bytes or to write none, so that `Ok(0)` always
means what the trait says.  What it returns itself as a transport keeps to the trait.
-/

namespace CobsIoAsync.Connection

open Reasoning Protocol

/-- A call of the transport offers it some bytes. -/
def Event.Offers {W E : Type} : Event W E → Prop
  | .pollRead _ free _ _ => 0 < free
  | .pollWrite _ _ pending _ => pending ≠ []
  | _ => True

/-- The events that are no reads and no writes of the transport. -/
def Event.undemanding {W E : Type} : Event W E → Bool
  | .pollRead .. | .pollWrite .. => false
  | _ => true

theorem Event.offers_of_undemanding {W E : Type} {event : Event W E} (h : event.undemanding) :
    event.Offers := by
  cases event <;> trivial

/-- A call keeps to the trait: a read or a write takes no more bytes than there is room for, and
none only where none was asked for; a read leaves the rest of its buffer as it was. -/
def Call.Kept {W E : Type} : Call W → Return E → Prop
  | .read _ buf, .read (.ready (.ok count)) buf' =>
      count ≤ buf.length ∧ (buf ≠ [] → 0 < count) ∧ buf'.length = buf.length ∧
        buf'.drop count = buf.drop count
  | .read _ buf, .read _ buf' => buf' = buf
  | .write _ buf, .write (.ready (.ok count)) => count ≤ buf.length ∧ (buf ≠ [] → 0 < count)
  | _, _ => True

def Event.Keeps {W E : Type} : Event W E → Prop
  | .returned call ret => call.Kept ret
  | _ => True

def Event.isReturned {W E : Type} : Event W E → Bool
  | .returned .. => true
  | _ => false

theorem Event.keeps_of_not_isReturned {W E : Type} {event : Event W E}
    (h : event.isReturned = false) : event.Keeps := by
  cases event <;> trivial

namespace Reliable

variable {T C W E : Type} {N : Nat} {s s' : Reliable T C W E N}

theorem Start.offers (h : Start s s') : Adds Event.Offers s s' := by
  cases h with
  | going => exact .of_eq rfl
  | _ => exact .of_snoc rfl trivial

variable [Target]

/-- What is left of a frame in progress is not empty. -/
theorem Output.offers (hinv : Inv s) {cx : W} {budget budget' : Budget} {work : Outcome E}
    (h : Output s cx budget work budget' s') : Adds Event.Offers s s' := by
  cases h with
  | nothing => exact .of_eq rfl
  | starved hstart => exact hstart.offers
  | @write s₁ s₂ frame offset left work hstart hleft hout hwrite =>
      have hinv₁ := hinv.turns hstart.turns
      have hoffset := hinv₁.offset_lt hout
      have hlength := length_frameBytes hinv₁ frame
      have hrest : (s₁.frameBytes frame).drop offset ≠ [] := by
        rw [ne_eq, List.drop_eq_nil_iff]
        omega
      refine hstart.offers.trans ?_
      cases hwrite <;> exact .of_snoc rfl hrest
  | flush hstart _ _ hflush =>
      refine hstart.offers.trans ?_
      cases hflush with
      | sent => exact ⟨_, List.append_assoc .., by simp [Event.Offers]⟩
      | _ => exact .of_snoc rfl trivial

/-- The receive buffer has room when nothing is processed. -/
theorem Input.offers (hsettled : Settled s) {cx : W} {budget budget' : Budget} {work : Outcome E}
    (h : Input s cx budget work budget' s') : Adds Event.Offers s s' := by
  have hroom : ∀ (poll : Poll (Except E Nat)) (bytes : List UInt8),
      (Event.pollRead cx (N - s.rxLen) poll bytes).Offers := fun _ _ =>
    Nat.sub_pos_of_lt hsettled.rxLen_lt
  cases h with
  | starved => exact .of_eq rfl
  | pending => exact .of_snoc rfl (hroom .pending [])
  | error _ _ error => exact .of_snoc rfl (hroom (.ready (.error error)) [])
  | eof => exact .of_snoc rfl (hroom (.ready (.ok 0)) [])
  | read _ _ count bytes _ _ _ _ hprocess =>
      refine Adds.trans (.of_snoc rfl (hroom (.ready (.ok count)) bytes))
        (hprocess.adds.mono fun event hevent => Event.offers_of_undemanding ?_)
      cases event <;> first | rfl | cases hevent

omit [Target] in
theorem Timed.offers {cx : W} {input : Work} {work : Outcome E} (h : Timed s cx input work s') :
    Adds Event.Offers s s' := by
  cases h with
  | unarmed => exact .of_eq rfl
  | listening => exact .of_eq rfl
  | requeue => exact .of_eq rfl
  | _ => exact .of_snoc rfl trivial

theorem Step.offers (hinv : Inv s) (hsettled : Settled s) {cx : W} {budget budget' : Budget}
    {work : Outcome E} (h : Step s cx budget work budget' s') : Adds Event.Offers s s' := by
  cases h with
  | output houtput => exact houtput.offers hinv
  | input houtput hinput =>
      exact (houtput.offers hinv).trans (hinput.offers (hsettled.of_sameInput houtput.sameInput))
  | timer houtput hinput htimer =>
      exact ((houtput.offers hinv).trans
        (hinput.offers (hsettled.of_sameInput houtput.sameInput))).trans htimer.offers
  | done houtput hinput htimer =>
      exact ((houtput.offers hinv).trans
        (hinput.offers (hsettled.of_sameInput houtput.sameInput))).trans htimer.offers

/-- Nothing is processed, and the transport was offered something every time. -/
structure Offering (s : Reliable T C W E N) : Prop where
  settled : Settled s
  offers : ∀ event ∈ s.trace, event.Offers

omit [Target] in
theorem Offering.adds (h : Offering s) (hsettled : Settled s') (hadds : Adds Event.Offers s s') :
    Offering s' := by
  obtain ⟨events, htrace, hoffers⟩ := hadds
  refine ⟨hsettled, fun event hevent => ?_⟩
  rw [htrace] at hevent
  rcases List.mem_append.mp hevent with hold | hnew
  · exact h.offers event hold
  · exact hoffers event hnew

theorem Offering.beat (hinv : Inv s) (h : Offering s) (hbeat : Beat Stepped s s') :
    Offering s' := by
  rcases hbeat.apart_or with ⟨-, cx, budget, budget', work, hstep⟩ | ⟨payload, _, _, _, -, rfl⟩ |
    hapart
  · exact h.adds (h.settled.receives hstep.receives) (hstep.offers hinv h.settled)
  · exact h.adds ⟨h.settled.1, h.settled.2, h.settled.3⟩ (.of_snoc rfl trivial)
  · obtain ⟨_, _, _, _, _, _, _, -, heq⟩ := hapart.same
    refine h.adds ?_ (hapart.adds.mono fun event hevent => Event.offers_of_undemanding ?_)
    · rw [heq]
      exact ⟨h.settled.1, h.settled.2, h.settled.3⟩
    · cases event <;> first | rfl | cases hevent

/-! ## What a call returns -/

variable [Waker W]

/-- Until a call returns, its trace tells of no return. -/
theorem Dispatch.unreturned (hN : Fits N) (hinv : Inv s) {call : Call W} {ret : Return E}
    (hcall : Dispatch s call ret s') : Adds (fun event => event.isReturned = false) s s' := by
  have hbefore : ∀ {s₁ s₂ : Reliable T C W E N}, Undisturbed s₁ s₂ →
      Adds (fun event => event.isReturned = false) s₁ s₂ :=
    fun h => h.adds.mono fun event hevent => by
      cases event <;> first | rfl | cases hevent
  have hwoken : ∀ {s₁ s₂ : Reliable T C W E N}, Woken s₁ s₂ →
      Adds (fun event => event.isReturned = false) s₁ s₂ := by
    rintro s₁ s₂ ⟨waiters, wakes, rfl, hwakes⟩
    refine ⟨wakes, rfl, fun event hevent => ?_⟩
    obtain ⟨op, waker, rfl⟩ := hwakes event hevent
    rfl
  cases hret : ret.isPending with
  | false =>
      obtain ⟨-, rfl⟩ | ⟨s₁, hdisturbed, rfl⟩ := hcall.completed hN hinv hret
      · exact .of_eq rfl
      · exact (hbefore hdisturbed).trans (hwoken (wakeWhere_woken _ s₁ _))
  | true =>
      obtain ⟨cx, work, budget, s₁, -, hdrive, -, -, rfl⟩ := hcall.pending hret
      exact (hbefore (hdrive.undisturbed hinv)).trans (hwoken (finish_woken s₁ _ _ _))

/-- A read gives some of the bytes that it finds, a write takes a packet or less. -/
theorem Dispatch.kept (hN : Fits N) (hinv : Inv s) {call : Call W} {ret : Return E}
    (hcall : Dispatch s call ret s') : call.Kept ret := by
  cases hcall with
  | readEmpty => exact ⟨Nat.le_refl 0, fun h => absurd rfl h, rfl, rfl⟩
  | @readData cx buf bytes _ _ len s₁ hne hdrive hdata hlen hbytes =>
      have hend := (hinv.moves hN (hdrive.moves hinv)).rxEnd_le
      have hroom := hN.maxPayload_le
      have hpos := List.length_pos_iff.mpr hne
      have hlength : bytes.length = len := by
        rw [hbytes, List.length_drop, List.length_take, Bytes.length_toList]
        omega
      refine ⟨by omega, fun _ => by omega, ?_, List.drop_left' hlength⟩
      rw [List.length_append, List.length_drop]
      omega
  | readError => rfl
  | readPending => rfl
  | writeEmpty => exact ⟨Nat.le_refl 0, fun h => absurd rfl h⟩
  | @write cx buf poll s₁ hne hqueue =>
      cases hqueue with
      | failed => trivial
      | busy => trivial
      | accepted _ _ _ _ hpayload =>
          obtain ⟨hsome, -⟩ := take_maxPayload hN hne
          rw [hpayload]
          exact ⟨List.length_take_le' .., fun _ => List.length_pos_iff.mpr hsome⟩
  | _ => trivial

section Runs

variable [Transport T W E] [Timer C W]

theorem Reachable.offering (h : Reachable s) : Offering s := by
  have hvisited := h.visited covers_stepped
  obtain ⟨_, _, _, hN, -⟩ := id hvisited
  refine hvisited.keep (fun transport timer config => ?_) fun hbefore hoffering hbeat => ?_
  · exact ⟨settled_initial hN transport timer config, fun event hevent => absurd hevent List.not_mem_nil⟩
  · exact hoffering.beat (hbefore.through covers_stepped).inv hbeat

theorem Next.keeps (hsound : Sound s) (hnext : Next s s') : Adds Event.Keeps s s' := by
  cases hnext with
  | call hcall =>
      obtain ⟨s₁, hdispatch, rfl⟩ := hsound.dispatch hcall
      have hbefore := (hdispatch.unreturned hsound.fits hsound.inv).mono
        fun event hevent => Event.keeps_of_not_isReturned hevent
      exact hbefore.trans (.of_snoc rfl (hdispatch.kept hsound.fits hsound.inv))
  | environment => exact .of_eq rfl

/-- A connection keeps to the trait on both sides, whatever its transport and its timer do. -/
theorem Reachable.contract (h : Reachable s) :
    ∀ event ∈ s.trace, event.Offers ∧ event.Keeps := by
  have hkept : ∀ event ∈ s.trace, event.Keeps := by
    apply h.keep
    · exact fun transport timer config event hevent => absurd hevent List.not_mem_nil
    · rintro s s' hsound hkept hnext event hevent
      obtain ⟨events, htrace, hnew⟩ := hnext.keeps hsound
      rw [htrace] at hevent
      rcases List.mem_append.mp hevent with hold | hlast
      · exact hkept event hold
      · exact hnew event hlast
  exact fun event hevent => ⟨h.offering.offers event hevent, hkept event hevent⟩

omit [Target] in
/-- Of two bytes one is accepted, and one of two places is read into. -/
theorem contract_partial : letI := target64
    ∃ s, (testConnection [0, 2, 1, 1, 1, 1, 1, 1, 1, 2, 7, 1, 1, 1, 6, 9, 40, 109, 16, 173, 0]).calls
        [.write 1 [5, 6], .read 2 [0, 0]] = some s ∧
      written s.trace = [[5]] ∧ readOut s.trace = [9] ∧
      ∀ event ∈ s.trace, event.Offers ∧ event.Keeps := by
  let := target64
  have hcalls : ((testConnection
      [0, 2, 1, 1, 1, 1, 1, 1, 1, 2, 7, 1, 1, 1, 6, 9, 40, 109, 16, 173, 0]).calls
        [.write 1 [5, 6], .read 2 [0, 0]]).map (fun s => (written s.trace, readOut s.trace)) =
      some ([[5]], [9]) := by decide +kernel
  obtain ⟨s, hs, hstate⟩ := Option.map_eq_some_iff.mp hcalls
  obtain ⟨hwritten, hread⟩ := Prod.mk.inj hstate
  exact ⟨s, hs, hwritten, hread, (reachable_testConnection hs).contract⟩

end Runs

end Reliable

end CobsIoAsync.Connection
