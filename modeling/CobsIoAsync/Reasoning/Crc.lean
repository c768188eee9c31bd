import Mathlib.Data.List.Basic
import Mathlib.Logic.Function.Iterate
import Mathlib.Tactic.Common

/-!
# Crc — reflected cyclic redundancy checks

A register of `w` bits that is shifted down and takes in one bit after the other.  The step is
linear over exclusive or, and injective if the polynomial has its top bit, so no change of `w`
consecutive bits goes unnoticed.
-/

namespace CobsIoAsync.Reasoning.Crc

variable {w : Nat} (poly : BitVec w)

/-- One step of the register: the polynomial is added when a one is shifted out. -/
def shift (r : BitVec w) : BitVec w := if r.getLsbD 0 then (r >>> 1) ^^^ poly else r >>> 1

/-- `n` steps. -/
def shifts (n : Nat) (r : BitVec w) : BitVec w := (shift poly)^[n] r

/-- A bit at the low end of the register. -/
def low (bit : Bool) : BitVec w := if bit then 1#w else 0#w

/-- The register takes in bits. -/
def feed (r : BitVec w) (bits : List Bool) : BitVec w :=
  bits.foldl (fun r bit => shift poly (r ^^^ low bit)) r

/-- Bits as a number, the first the least significant. -/
def word : List Bool → BitVec w
  | [] => 0#w
  | bit :: bits => low bit ^^^ (word bits <<< 1)

variable {poly}

theorem shifts_succ (n : Nat) (r : BitVec w) :
    shifts poly (n + 1) r = shifts poly n (shift poly r) := rfl

theorem feed_append (r : BitVec w) (xs ys : List Bool) :
    feed poly r (xs ++ ys) = feed poly (feed poly r xs) ys :=
  List.foldl_append

/-! ## Linearity -/

theorem shift_eq (r : BitVec w) :
    shift poly r = (r >>> 1) ^^^ if r.getLsbD 0 then poly else 0#w := by
  unfold shift
  split
  · rfl
  · exact BitVec.xor_zero.symm

theorem shift_xor (a b : BitVec w) : shift poly (a ^^^ b) = shift poly a ^^^ shift poly b := by
  have hpoly : (if (a ^^^ b).getLsbD 0 then poly else 0#w) =
      (if a.getLsbD 0 then poly else 0#w) ^^^ if b.getLsbD 0 then poly else 0#w := by
    rw [BitVec.getLsbD_xor]
    cases a.getLsbD 0 <;> cases b.getLsbD 0 <;> simp
  rw [shift_eq, shift_eq, shift_eq, hpoly, BitVec.ushiftRight_xor_distrib]
  ac_rfl

theorem shifts_xor (n : Nat) (a b : BitVec w) :
    shifts poly n (a ^^^ b) = shifts poly n a ^^^ shifts poly n b := by
  induction n generalizing a b with
  | zero => rfl
  | succ n ih => rw [shifts_succ, shift_xor, ih, shifts_succ, shifts_succ]

/-- While zeros are shifted out the register only moves down. -/
theorem shifts_eq_ushiftRight {n : Nat} {r : BitVec w} (h : ∀ i < n, r.getLsbD i = false) :
    shifts poly n r = r >>> n := by
  induction n generalizing r with
  | zero => exact (BitVec.ushiftRight_zero r).symm
  | succ n ih =>
      have hzero : r.getLsbD 0 = false := h 0 (Nat.succ_pos n)
      rw [shifts_succ, shift, if_neg (by rw [hzero]; decide), ih, Nat.add_comm n 1,
        BitVec.shiftRight_add]
      intro i hi
      rw [BitVec.getLsbD_ushiftRight]
      exact h (1 + i) (by omega)

/-! ## Injectivity -/

/-- The top bit tells whether the polynomial was added. -/
theorem shift_injective (hpoly : poly.getLsbD (w - 1) = true) :
    Function.Injective (shift poly) := by
  intro a b h
  have hpos : 0 < w := by
    by_contra hw
    rw [BitVec.getLsbD_of_ge _ _ (by omega)] at hpoly
    cases hpoly
  have htop : ∀ r : BitVec w, (shift poly r).getLsbD (w - 1) = r.getLsbD 0 := by
    intro r
    have hout : (r >>> 1).getLsbD (w - 1) = false := by
      rw [BitVec.getLsbD_ushiftRight]
      exact BitVec.getLsbD_of_ge _ _ (by omega)
    unfold shift
    cases hr : r.getLsbD 0
    · exact hout
    · rw [if_pos rfl, BitVec.getLsbD_xor, hout, hpoly]
      rfl
  have hbit : a.getLsbD 0 = b.getLsbD 0 := by rw [← htop a, h, htop b]
  have hrest : a >>> 1 = b >>> 1 := by
    unfold shift at h
    rw [hbit] at h
    cases hb : b.getLsbD 0
    · simpa [hb] using h
    · simpa [hb] using h
  apply BitVec.eq_of_getLsbD_eq
  intro i hi
  cases i with
  | zero => exact hbit
  | succ i =>
      have hget := congrArg (fun r => BitVec.getLsbD r i) hrest
      simpa [BitVec.getLsbD_ushiftRight, Nat.add_comm] using hget

theorem shifts_injective (hpoly : poly.getLsbD (w - 1) = true) (n : Nat) :
    Function.Injective (shifts poly n) :=
  (shift_injective hpoly).iterate n

/-- Different registers stay different. -/
theorem feed_injective (hpoly : poly.getLsbD (w - 1) = true) (bits : List Bool) :
    Function.Injective fun r => feed poly r bits := by
  induction bits with
  | nil => exact Function.injective_id
  | cons bit bits ih =>
      intro a b h
      exact (BitVec.xor_left_inj _).mp (shift_injective hpoly (ih h))

/-! ## Windows -/

theorem getLsbD_low (bit : Bool) (i : Nat) :
    (low bit : BitVec w).getLsbD i = (decide (i = 0 ∧ i < w) && bit) := by
  cases bit <;> simp [low, BitVec.getLsbD_one, and_comm, Nat.pos_iff_ne_zero]
  grind

theorem getLsbD_word (bits : List Bool) (i : Nat) :
    (word bits : BitVec w).getLsbD i = (decide (i < w) && bits.getD i false) := by
  induction bits generalizing i with
  | nil => simp [word]
  | cons bit bits ih =>
      rw [word, BitVec.getLsbD_xor, getLsbD_low, BitVec.getLsbD_shiftLeft]
      cases i with
      | zero => simp
      | succ i =>
          simp only [Nat.succ_ne_zero, false_and, decide_false, Bool.false_and, Bool.false_xor,
            Nat.add_sub_cancel, ih, List.getD_cons_succ]
          by_cases hi : i + 1 < w
          · simp [hi, Nat.lt_of_succ_lt hi]
          · simp [hi]

/-- Bits that fit the register are read off it. -/
theorem word_injective {xs ys : List Bool} (hlen : xs.length = ys.length) (hw : xs.length ≤ w)
    (h : (word xs : BitVec w) = word ys) : xs = ys := by
  apply List.ext_getElem hlen
  intro i hx hy
  have hget := congrArg (fun r => BitVec.getLsbD r i) h
  simp only [getLsbD_word, Nat.lt_of_lt_of_le hx hw, decide_true, Bool.true_and] at hget
  simpa [hx, hy] using hget

/-- No more bits than the register has might as well be taken in at once. -/
theorem feed_eq_shifts {bits : List Bool} (hw : bits.length ≤ w) (r : BitVec w) :
    feed poly r bits = shifts poly bits.length (r ^^^ word bits) := by
  induction bits generalizing r with
  | nil => exact (BitVec.xor_zero).symm
  | cons bit bits ih =>
      simp only [List.length_cons] at hw
      have hdown : shift poly (word bits <<< 1) = word bits := by
        have hzero : ∀ i < 1, ((word bits : BitVec w) <<< 1).getLsbD i = false := by
          intro i hi
          rw [BitVec.getLsbD_shiftLeft]
          simp [hi]
        have hshift : shifts poly 1 (word bits <<< 1) = (word bits <<< 1) >>> 1 :=
          shifts_eq_ushiftRight hzero
        show shifts poly 1 (word bits <<< 1) = word bits
        rw [hshift]
        apply BitVec.eq_of_getLsbD_eq
        intro i hi
        rw [BitVec.getLsbD_ushiftRight, BitVec.getLsbD_shiftLeft, getLsbD_word, getLsbD_word]
        by_cases hi' : 1 + i < w
        · simp [hi']
        · have hend : bits.length ≤ i := by omega
          simp [hi', List.getElem?_eq_none hend]
      show feed poly (shift poly (r ^^^ low bit)) bits = _
      rw [ih (by omega), List.length_cons, shifts_succ, word, ← BitVec.xor_assoc,
        shift_xor (r ^^^ low bit), hdown]

/-- A change within a window of `w` bits changes the register for good. -/
theorem feed_ne (hpoly : poly.getLsbD (w - 1) = true) (r : BitVec w) {xs mid mid' ys : List Bool}
    (hlen : mid.length = mid'.length) (hw : mid.length ≤ w) (hne : mid ≠ mid') :
    feed poly r (xs ++ mid ++ ys) ≠ feed poly r (xs ++ mid' ++ ys) := by
  intro h
  simp only [feed_append] at h
  have hmid := feed_injective hpoly ys h
  have hw' : mid'.length ≤ w := by omega
  rw [feed_eq_shifts hw, feed_eq_shifts hw', hlen] at hmid
  have hword := (BitVec.xor_right_inj _).mp (shifts_injective hpoly _ hmid)
  exact hne (word_injective hlen hw hword)

end CobsIoAsync.Reasoning.Crc
