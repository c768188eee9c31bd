import Mathlib.Data.List.Basic
import Mathlib.Data.List.Induction
import Mathlib.Tactic.Common
import Mathlib.Tactic.Ring

/-!
# BigEndian — fixed-width big-endian integers
-/

namespace CobsIoAsync.Reasoning.BigEndian

/-- The low `width` bytes of `x`, most significant first. -/
def bytes : Nat → Nat → List UInt8
  | 0, _ => []
  | width + 1, x => bytes width (x / 256) ++ [UInt8.ofNat x]

/-- The number written by a list of bytes, most significant first. -/
def value (bs : List UInt8) : Nat := bs.foldl (fun acc b => acc * 256 + b.toNat) 0

@[simp] theorem length_bytes (width x : Nat) : (bytes width x).length = width := by
  induction width generalizing x with
  | zero => rfl
  | succ width ih => simp [bytes, ih]

theorem value_append_singleton (bs : List UInt8) (b : UInt8) :
    value (bs ++ [b]) = value bs * 256 + b.toNat := by
  simp [value, List.foldl_append]

theorem value_bytes (width x : Nat) : value (bytes width x) = x % 256 ^ width := by
  induction width generalizing x with
  | zero => simp [bytes, value, Nat.mod_one]
  | succ width ih =>
      rw [bytes, value_append_singleton, ih, UInt8.toNat_ofNat',
        show 256 ^ (width + 1) = 256 * 256 ^ width by ring, Nat.mod_mul]
      omega

theorem value_bytes_of_lt {width x : Nat} (h : x < 256 ^ width) : value (bytes width x) = x := by
  rw [value_bytes, Nat.mod_eq_of_lt h]

theorem value_lt (bs : List UInt8) : value bs < 256 ^ bs.length := by
  induction bs using List.reverseRecOn with
  | nil => exact Nat.one_pos
  | append_singleton bs b ih =>
      have hb := b.toNat_lt
      rw [value_append_singleton, List.length_append, List.length_singleton, Nat.pow_succ]
      omega

/-- Numbers of one width are written in one way. -/
theorem value_injective {xs ys : List UInt8} (hlen : xs.length = ys.length)
    (h : value xs = value ys) : xs = ys := by
  induction xs using List.reverseRecOn generalizing ys with
  | nil => exact (List.length_eq_zero_iff.mp hlen.symm).symm
  | append_singleton xs x ih =>
      rcases List.eq_nil_or_concat ys with rfl | ⟨ys, y, rfl⟩
      · simp at hlen
      · rw [List.concat_eq_append] at hlen h ⊢
        rw [value_append_singleton, value_append_singleton] at h
        have hx := x.toNat_lt
        have hy := y.toNat_lt
        have hlast : x = y := UInt8.toNat_inj.mp (by omega)
        rw [hlast, ih (by simpa using hlen) (by omega)]

/-- Writing what was read gives the bytes back. -/
theorem bytes_value (bs : List UInt8) : bytes bs.length (value bs) = bs := by
  apply value_injective (length_bytes bs.length (value bs))
  exact value_bytes_of_lt (value_lt bs)

end CobsIoAsync.Reasoning.BigEndian
