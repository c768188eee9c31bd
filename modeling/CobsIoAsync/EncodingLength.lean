import CobsIoAsync.Reasoning.Cobs
import CobsIoAsync.Reasoning.Exec

/-!
# EncodingLength — the bounds of `lib.rs`
-/

namespace CobsIoAsync

open Reasoning

/-- `max_encoding_overhead`. -/
def maxEncodingOverhead (sourceLen : Nat) : Nat :=
  if sourceLen = 0 then 1 else (sourceLen + 253) / 254

/-- `max_encoding_length`; the addition is not checked by the code and overflows `usize`. -/
def maxEncodingLength [Target] (sourceLen : Nat) : Exec Nat :=
  checkedAdd Target.usizeMax sourceLen (maxEncodingOverhead sourceLen)

theorem maxEncodingOverhead_eq (n : Nat) : maxEncodingOverhead n = Cobs.overhead n := rfl

theorem maxEncodingLength_eq_some [Target] {n m : Nat} :
    maxEncodingLength n = some m ↔
      n + Cobs.overhead n ≤ Target.usizeMax ∧ m = n + Cobs.overhead n := by
  unfold maxEncodingLength checkedAdd
  rw [maxEncodingOverhead_eq]
  split
  · rename_i h
    simp only [Option.some.injEq, h, true_and, eq_comm]
  · rename_i h
    simp only [reduceCtorEq, h, false_and]

/-- A shorter source has no larger bound. -/
theorem maxEncodingLength_of_le [Target] {k n m : Nat} (hk : k ≤ n)
    (h : maxEncodingLength n = some m) :
    maxEncodingLength k = some (k + Cobs.overhead k) ∧ k + Cobs.overhead k ≤ m := by
  obtain ⟨hn, rfl⟩ := maxEncodingLength_eq_some.mp h
  have hmono := Cobs.overhead_le_overhead hk
  exact ⟨maxEncodingLength_eq_some.mpr ⟨by omega, rfl⟩, by omega⟩

end CobsIoAsync
