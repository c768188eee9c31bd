import CobsIoAsync.Reasoning.Exec

/-!
# Bytes — byte slices of a fixed length

`Bytes n` is a mutable byte slice or array of length `n`: whoever holds it can overwrite its
bytes and cannot change its length.  Each write has one equation for the bytes it leaves.
-/

namespace CobsIoAsync.Reasoning

/-- The bytes of a slice of length `n`. -/
@[ext] structure Bytes (n : Nat) where
  toList : List UInt8
  length_toList : toList.length = n
  deriving DecidableEq

namespace Bytes

attribute [simp] length_toList

variable {n : Nat}

/-- `[0; n]`. -/
def zeros (n : Nat) : Bytes n := ⟨List.replicate n 0, List.length_replicate⟩

/-- `*b.get_mut(i)? = x`. -/
def set? (b : Bytes n) (i : Nat) (x : UInt8) : Option (Bytes n) :=
  if i < n then some ⟨b.toList.set i x, by simp⟩ else none

/-- `b[i..j].copy_from_slice(src)`: the range must lie in `b` and have the length of `src`. -/
def copyFromSlice (b : Bytes n) (i j : Nat) (src : List UInt8) : Exec (Bytes n) :=
  if h : i ≤ j ∧ j ≤ n ∧ src.length = j - i then
    some ⟨b.toList.take i ++ src ++ b.toList.drop j, by
      simp only [List.length_append, List.length_take, List.length_drop, length_toList]; omega⟩
  else none

/-- `b.copy_within(i..j, dest)`. -/
def copyWithin (b : Bytes n) (i j dest : Nat) : Exec (Bytes n) :=
  if i ≤ j ∧ j ≤ n ∧ dest ≤ n - (j - i) then
    b.copyFromSlice dest (dest + (j - i)) ((b.toList.take j).drop i)
  else none

/-- The slice `b[i..]`. -/
def dropFrom (b : Bytes n) (i : Nat) : Bytes (n - i) :=
  ⟨b.toList.drop i, by simp⟩

/-- `b` after `b[i..]` was borrowed and left as `tail`. -/
def setFrom (b : Bytes n) (i : Nat) (tail : Bytes (n - i)) : Bytes n :=
  ⟨b.toList.take i ++ tail.toList, by
    simp only [List.length_append, List.length_take, length_toList]; omega⟩

/-- The byte `x` followed by the slice `b`. -/
def cons (x : UInt8) (b : Bytes n) : Bytes (n + 1) := ⟨x :: b.toList, by simp⟩

/-- All bytes but the first. -/
def tail (b : Bytes (n + 1)) : Bytes n := ⟨b.toList.tail, by simp⟩

@[simp] theorem toList_zeros : (zeros n).toList = List.replicate n 0 := rfl

@[simp] theorem toList_dropFrom (b : Bytes n) (i : Nat) :
    (b.dropFrom i).toList = b.toList.drop i := rfl

@[simp] theorem toList_setFrom (b : Bytes n) (i : Nat) (tail : Bytes (n - i)) :
    (b.setFrom i tail).toList = b.toList.take i ++ tail.toList := rfl

@[simp] theorem toList_cons (x : UInt8) (b : Bytes n) : (b.cons x).toList = x :: b.toList := rfl

@[simp] theorem toList_tail (b : Bytes (n + 1)) : b.tail.toList = b.toList.tail := rfl

theorem set?_eq {b : Bytes n} {i : Nat} (h : i < n) (x : UInt8) :
    b.set? i x = some ⟨b.toList.set i x, by simp⟩ := if_pos h

theorem set?_eq_none {b : Bytes n} {i : Nat} (h : n ≤ i) (x : UInt8) : b.set? i x = none :=
  if_neg (Nat.not_lt.mpr h)

theorem copyFromSlice_returns (b : Bytes n) {i j : Nat} {src : List UInt8} (hij : i ≤ j)
    (hj : j ≤ n) (hs : src.length = j - i) :
    Returns (b.copyFromSlice i j src)
      (fun b' => b'.toList = b.toList.take i ++ src ++ b.toList.drop j) :=
  ⟨_, dif_pos ⟨hij, hj, hs⟩, rfl⟩

/-- Writing the head of a slice leaves `src` in front of what follows it. -/
theorem copyFromSlice_zero (b : Bytes n) {j : Nat} {src : List UInt8} (hj : j ≤ n)
    (hs : src.length = j) :
    Returns (b.copyFromSlice 0 j src) (fun b' => b'.toList = src ++ b.toList.drop j) := by
  simpa only [List.take_zero, List.nil_append] using
    b.copyFromSlice_returns (Nat.zero_le j) hj (by omega)

/-- Moving `b[i..j]` to the front. -/
theorem copyWithin_zero (b : Bytes n) {i j : Nat} (hij : i ≤ j) (hj : j ≤ n) :
    Returns (b.copyWithin i j 0)
      (fun b' => b'.toList = (b.toList.take j).drop i ++ b.toList.drop (j - i)) := by
  unfold copyWithin
  rw [if_pos ⟨hij, hj, Nat.zero_le _⟩, Nat.zero_add]
  exact b.copyFromSlice_zero (by omega) (by simp; omega)

/-- `written` has replaced the head of the slice `orig`. -/
def Overwrites (orig : Bytes n) (written : List UInt8) (b : Bytes n) : Prop :=
  b.toList = written ++ orig.toList.drop written.length

namespace Overwrites

variable {orig b : Bytes n} {written : List UInt8}

theorem refl (b : Bytes n) : Overwrites b [] b := by simp [Overwrites]

theorem toList_eq (h : Overwrites orig written b) :
    b.toList = written ++ orig.toList.drop written.length := h

theorem length_le (h : Overwrites orig written b) : written.length ≤ n := by
  have hlen := congrArg List.length h.toList_eq
  simp only [List.length_append, List.length_drop, length_toList] at hlen
  omega

theorem take (h : Overwrites orig written b) : b.toList.take written.length = written := by
  rw [h.toList_eq, List.take_left]

/-- One more byte behind the written ones. -/
theorem push (h : Overwrites orig written b) (hroom : written.length < n) (x : UInt8) :
    Returns (b.set? written.length x) (Overwrites orig (written ++ [x])) := by
  refine ⟨_, set?_eq hroom x, ?_⟩
  have hlt : written.length < orig.toList.length := by simpa using hroom
  have hdrop : orig.toList.drop written.length =
      orig.toList[written.length] :: orig.toList.drop (written.length + 1) :=
    List.drop_eq_getElem_cons hlt
  simp only [Overwrites, List.length_append, List.length_singleton]
  rw [h.toList_eq, List.set_append_right _ _ (Nat.le_refl _), Nat.sub_self, hdrop, List.set_cons_zero,
    List.append_assoc, List.singleton_append]

/-- `src` copied behind the written bytes. -/
theorem append (h : Overwrites orig written b) {i j : Nat} {src : List UInt8}
    (hi : i = written.length) (hj : j = written.length + src.length) (hroom : j ≤ n) :
    Returns (b.copyFromSlice i j src) (Overwrites orig (written ++ src)) := by
  subst hi hj
  refine (b.copyFromSlice_returns (Nat.le_add_right _ _) hroom (by omega)).mono
    fun b' hb' => ?_
  rw [Overwrites, hb', h.take, h.toList_eq, List.drop_append,
    List.drop_eq_nil_of_le (Nat.le_add_right _ _), List.nil_append, Nat.add_sub_cancel_left,
    List.drop_drop, List.length_append]

/-- The slice of the written bytes. -/
theorem slice_written (h : Overwrites orig written b) {i : Nat} (hi : i = written.length) :
    slice b.toList 0 i = some written := by
  subst hi
  rw [slice_zero (by simpa using h.length_le), h.take]

/-- A written byte is written again. -/
theorem set (h : Overwrites orig written b) {i : Nat} (hi : i < written.length) (x : UInt8) :
    Returns (b.set? i x) (Overwrites orig (written.set i x)) := by
  have hle := h.length_le
  refine ⟨_, set?_eq (by omega) x, ?_⟩
  simp only [Overwrites, List.length_set]
  rw [h.toList_eq]
  exact List.set_append_left _ _ hi

/-- The rest of the slice is borrowed, and its head is overwritten. -/
theorem setFrom (h : Overwrites orig written b) {i : Nat} (hi : i = written.length)
    {more : List UInt8} {tail : Bytes (n - i)} (htail : Overwrites (b.dropFrom i) more tail) :
    Overwrites orig (written ++ more) (b.setFrom i tail) := by
  subst hi
  rw [Overwrites, toList_setFrom, htail.toList_eq, toList_dropFrom, h.take, h.toList_eq,
    List.drop_left, List.drop_drop, List.length_append, List.append_assoc]

end Overwrites

end Bytes

end CobsIoAsync.Reasoning
