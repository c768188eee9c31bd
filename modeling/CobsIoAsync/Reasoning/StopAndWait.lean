import Mathlib.Data.List.Basic
import Mathlib.Logic.Relation
import Mathlib.Tactic.Common

/-!
# StopAndWait — reliable transfer with one item in flight

An endpoint sends numbered items, one at a time, and takes numbered items from its peer.  What
it says and what it hears are only collected, so nothing is assumed about how messages travel:
they may be lost, repeated, reordered and held back.  If both endpoints hear nothing that the
other has not said, each has taken a prefix of what the other sent.
-/

namespace CobsIoAsync.Reasoning.StopAndWait

variable {α : Type}

/-- An item with its number, or the acknowledgement of a number. -/
inductive Message (α : Type) where
  | item (seq : Nat) (x : α)
  | ack (seq : Nat)
  deriving DecidableEq

/-- One side of a transfer: the items it sent, whether the last one still waits for its
acknowledgement, and the items it took. -/
structure Endpoint (α : Type) where
  sent : List α
  waiting : Bool
  took : List α
  said : List (Message α)
  heard : List (Message α)

/-- An endpoint before the first item. -/
def Endpoint.start (α : Type) : Endpoint α := ⟨[], false, [], [], []⟩

/-- What an endpoint may do. -/
inductive Step : Endpoint α → Endpoint α → Prop
  | send (e : Endpoint α) (x : α) (hidle : e.waiting = false) :
      Step e { e with
        sent := e.sent ++ [x], waiting := true, said := e.said ++ [.item e.sent.length x] }
  | acknowledge (e : Endpoint α) (seq : Nat) (htook : seq < e.took.length) :
      Step e { e with said := e.said ++ [.ack seq] }
  | hear (e : Endpoint α) (m : Message α) : Step e { e with heard := e.heard ++ [m] }
  | take (e : Endpoint α) (x : α) (hheard : .item e.took.length x ∈ e.heard) :
      Step e { e with took := e.took ++ [x] }
  | release (e : Endpoint α) (seq : Nat) (hheard : .ack seq ∈ e.heard)
      (hlast : seq + 1 = e.sent.length) : Step e { e with waiting := false }

/-- What is said and done rests on what was sent, taken and heard. -/
structure Inv (e : Endpoint α) : Prop where
  sent_of_item : ∀ {seq x}, .item seq x ∈ e.said → e.sent[seq]? = some x
  took_of_ack : ∀ {seq}, .ack seq ∈ e.said → seq < e.took.length
  heard_of_took : ∀ {seq x}, e.took[seq]? = some x → .item seq x ∈ e.heard
  heard_of_sent : ∀ {seq}, seq + 1 < e.sent.length → .ack seq ∈ e.heard
  heard_of_idle : e.waiting = false → ∀ {seq}, seq + 1 = e.sent.length → .ack seq ∈ e.heard

theorem inv_start : Inv (Endpoint.start α) := by
  constructor <;> simp [Endpoint.start]

theorem Inv.step {e e' : Endpoint α} (h : Inv e) (hstep : Step e e') : Inv e' := by
  cases hstep with
  | send x hidle =>
      refine { h with
        sent_of_item := ?_, took_of_ack := ?_, heard_of_sent := ?_, heard_of_idle := by simp }
      · intro seq y hsaid
        rcases List.mem_append.mp hsaid with hold | hnew
        · have hget := h.sent_of_item hold
          rw [List.getElem?_append_left (List.getElem?_eq_some_iff.mp hget).1, hget]
        · obtain ⟨rfl, rfl⟩ := by simpa using hnew
          simp
      · intro seq hsaid
        exact h.took_of_ack (by simpa using hsaid)
      · intro seq hlt
        simp only [List.length_append, List.length_singleton] at hlt
        -- The item sent before was acknowledged, or the sender would still be waiting.
        by_cases hlast : seq + 1 = e.sent.length
        · exact h.heard_of_idle hidle hlast
        · exact h.heard_of_sent (by omega)
  | acknowledge seq htook =>
      refine { h with sent_of_item := ?_, took_of_ack := ?_ }
      · intro k x hsaid
        exact h.sent_of_item (by simpa using hsaid)
      · intro k hsaid
        rcases List.mem_append.mp hsaid with hold | hnew
        · exact h.took_of_ack hold
        · obtain rfl := by simpa using hnew
          exact htook
  | hear m =>
      exact { h with
        heard_of_took := fun hget => List.mem_append_left _ (h.heard_of_took hget)
        heard_of_sent := fun hlt => List.mem_append_left _ (h.heard_of_sent hlt)
        heard_of_idle := fun hidle _ hlast =>
          List.mem_append_left _ (h.heard_of_idle hidle hlast) }
  | take x hheard =>
      refine { h with took_of_ack := ?_, heard_of_took := ?_ }
      · intro seq hsaid
        have hlt := h.took_of_ack hsaid
        simp only [List.length_append, List.length_singleton]
        omega
      · intro seq y hget
        -- The item just taken was heard; the earlier ones were taken before.
        by_cases hlt : seq < e.took.length
        · exact h.heard_of_took (by rwa [List.getElem?_append_left hlt] at hget)
        · rw [List.getElem?_append_right (by omega), List.getElem?_singleton] at hget
          split at hget
          · obtain rfl := Option.some.inj hget
            rwa [show seq = e.took.length by omega]
          · cases hget
  | release seq hheard hlast =>
      refine { h with heard_of_idle := fun _ k hk => ?_ }
      rwa [show k = seq by simp only at hk; omega]

/-- A run of an endpoint. -/
def Steps : Endpoint α → Endpoint α → Prop := Relation.ReflTransGen Step

theorem Inv.steps {e e' : Endpoint α} (h : Inv e) (hsteps : Steps e e') : Inv e' := by
  induction hsteps with
  | refl => exact h
  | tail _ hstep ih => exact ih.step hstep

/-! ## Two endpoints -/

section Pair

variable {a b : Endpoint α}

/-- Every taken item is the sent one of its number. -/
theorem took_prefix (ha : Inv a) (hb : Inv b) (hheard : ∀ m ∈ b.heard, m ∈ a.said) :
    b.took <+: a.sent := by
  rw [List.prefix_iff_getElem?]
  intro i hi
  exact ha.sent_of_item (hheard _ (hb.heard_of_took (List.getElem?_eq_getElem hi)))

/-- At most one item is on its way. -/
theorem sent_le (ha : Inv a) (hb : Inv b) (hacks : ∀ m ∈ a.heard, m ∈ b.said) :
    a.sent.length ≤ b.took.length + 1 := by
  by_contra hover
  have hheard : .ack (a.sent.length - 2) ∈ a.heard := ha.heard_of_sent (by omega)
  have hlt := hb.took_of_ack (hacks _ hheard)
  omega

/-- As many items as an endpoint that does not wait has sent were taken. -/
theorem sent_le_took (ha : Inv a) (hb : Inv b) (hacks : ∀ m ∈ a.heard, m ∈ b.said)
    (hidle : a.waiting = false) : a.sent.length ≤ b.took.length := by
  cases hlen : a.sent.length with
  | zero => exact Nat.zero_le _
  | succ k => exact hb.took_of_ack (hacks _ (ha.heard_of_idle hidle hlen.symm))

/-- An endpoint that does not wait knows that everything arrived. -/
theorem took_eq (ha : Inv a) (hb : Inv b) (hheard : ∀ m ∈ b.heard, m ∈ a.said)
    (hacks : ∀ m ∈ a.heard, m ∈ b.said) (hidle : a.waiting = false) : b.took = a.sent := by
  have htaken := took_prefix ha hb hheard
  exact htaken.eq_of_length_le (sent_le_took ha hb hacks hidle)

end Pair

end CobsIoAsync.Reasoning.StopAndWait
