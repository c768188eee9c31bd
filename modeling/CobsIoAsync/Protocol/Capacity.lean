import CobsIoAsync.Protocol.Model

/-!
# Protocol.Capacity — what `max_payload` guarantees
-/

namespace CobsIoAsync.Protocol

open Reasoning

variable [Target]

/-- The loop never goes up and stops at a length whose encoding fits, unless it stops at the
packet overhead. -/
theorem maxPayloadLoop_spec {body len r : Nat} (h : maxPayloadLoop body len = some r) :
    r ≤ len ∧ (overhead < r → r + Cobs.overhead r ≤ body ∧
      r + Cobs.overhead r ≤ Target.usizeMax) := by
  induction len with
  | zero =>
      obtain rfl := Option.some.inj h
      exact ⟨Nat.le_refl _, fun hr => absurd hr (Nat.not_lt_zero _)⟩
  | succ len ih =>
      rw [maxPayloadLoop] at h
      split at h
      · obtain ⟨encoded, hencoded, h⟩ := Option.bind_eq_some_iff.mp h
        obtain ⟨hfit, rfl⟩ := maxEncodingLength_eq_some.mp hencoded
        split at h
        · have hr := ih h
          exact ⟨by omega, hr.2⟩
        · obtain rfl := Option.some.inj h
          exact ⟨Nat.le_refl _, fun _ => ⟨by omega, hfit⟩⟩
      · rename_i hle
        obtain rfl := Option.some.inj h
        exact ⟨Nat.le_refl _, fun hr => absurd hr hle⟩

/-- The loop goes past a length only if its encoding does not fit. -/
theorem maxPayloadLoop_maximal {body len r k : Nat} (h : maxPayloadLoop body len = some r)
    (hr : r < k) (hk : k ≤ len) : body < k + Cobs.overhead k := by
  induction len with
  | zero => omega
  | succ len ih =>
      rw [maxPayloadLoop] at h
      split at h
      · obtain ⟨encoded, hencoded, h⟩ := Option.bind_eq_some_iff.mp h
        obtain ⟨-, rfl⟩ := maxEncodingLength_eq_some.mp hencoded
        split at h
        · rename_i hlong
          by_cases hlast : k = len + 1
          · rw [hlast]
            exact hlong
          · exact ih h (by omega)
        · obtain rfl := Option.some.inj h
          omega
      · obtain rfl := Option.some.inj h
        omega

/-- A packet with at most `max_payload` bytes has a delimited frame that fits the capacity. -/
theorem maxPayload_fits {capacity payload : Nat} (h : maxPayload capacity = some payload)
    (hpos : 0 < payload) :
    overhead + payload + Cobs.overhead (overhead + payload) + 2 ≤ capacity := by
  unfold maxPayload at h
  split at h
  · obtain rfl := Option.some.inj h
    exact absurd hpos (Nat.lt_irrefl 0)
  · rename_i body hbody
    obtain ⟨len, hlen, h⟩ := Option.bind_eq_some_iff.mp h
    obtain rfl := Option.some.inj h
    have hspec := (maxPayloadLoop_spec hlen).2 (by omega)
    have hsum : overhead + (len - overhead) = len := by omega
    simp only [checkedSub, Option.ite_none_right_eq_some, Option.some.injEq] at hbody
    rw [hsum]
    omega

/-- A longer payload does not fit for every content. -/
theorem maxPayload_maximal {capacity max payload : Nat} (h : maxPayload capacity = some max)
    (hlong : max < payload) :
    capacity < overhead + payload + Cobs.overhead (overhead + payload) + 2 := by
  unfold maxPayload checkedSub at h
  split at h
  · rename_i hbody
    have hsmall : ¬ 2 ≤ capacity := by simpa using hbody
    omega
  · rename_i body hbody
    obtain ⟨len, hlen, h⟩ := Option.bind_eq_some_iff.mp h
    obtain rfl := Option.some.inj h
    simp only [Option.ite_none_right_eq_some, Option.some.injEq] at hbody
    -- the loop started at the body, so the longer packet is above it or was passed over
    by_cases hk : overhead + payload ≤ body
    · have hpassed := maxPayloadLoop_maximal hlen (show len < overhead + payload by omega) hk
      omega
    · omega

theorem maxPayload_le {capacity payload : Nat} (h : maxPayload capacity = some payload)
    (hpos : 0 < payload) : overhead + payload ≤ capacity := by
  have hfits := maxPayload_fits h hpos
  omega

/-- The frame of a shorter payload fits too. -/
theorem length_le_of_maxPayload {capacity max len : Nat} (h : maxPayload capacity = some max)
    (hpos : 0 < max) (hlen : len ≤ max) :
    overhead + len + Cobs.overhead (overhead + len) + 2 ≤ capacity := by
  have hfits := maxPayload_fits h hpos
  have hmono := Cobs.overhead_le_overhead (show overhead + len ≤ overhead + max by omega)
  omega

/-- The search does not overflow where the bound for the capacity itself does not. -/
theorem maxPayload_returns {capacity max : Nat} (h : maxEncodingLength capacity = some max) :
    Returns (maxPayload capacity) fun _ => True := by
  have hloop : ∀ body len, len ≤ capacity → Returns (maxPayloadLoop body len) fun _ => True := by
    intro body len
    induction len with
    | zero => exact fun _ => .ret trivial
    | succ len ih =>
        intro hlen
        rw [maxPayloadLoop]
        split
        · refine Returns.bind (P := fun _ => True)
            ⟨_, (maxEncodingLength_of_le hlen h).1, trivial⟩ fun encoded _ => ?_
          split
          · exact ih (by omega)
          · exact .ret trivial
        · exact .ret trivial
  unfold maxPayload checkedSub
  split
  · exact .ret trivial
  · rename_i body hbody
    split at hbody
    · obtain rfl := Option.some.inj hbody
      exact (hloop _ _ (Nat.sub_le _ _)).bind fun _ _ => .ret trivial
    · cases hbody

/-- The acknowledgement buffer has the length `max_encoding_length` asks for. -/
theorem maxEncodingLength_overhead : maxEncodingLength overhead = some (ackFrameLen - 2) := by
  have h := Target.sixteen_bits
  have hvalue : overhead + Cobs.overhead overhead = 18 := rfl
  rw [maxEncodingLength_eq_some, hvalue]
  exact ⟨by omega, rfl⟩

end CobsIoAsync.Protocol
