import Mathlib.Data.List.Basic
import Mathlib.Tactic.Common

/-!
# Cobs — the block structure of COBS bodies

A body is a sequence of blocks, each at most 254 nonzero bytes behind a code byte that is one more
than their number.  Between two blocks stands an implicit zero, unless the first of them is full.
`encode` is the reference encoder: it cuts the payload at its zeros and after every 254 nonzero
bytes, and does not open a block behind a full block that ends the payload.
-/

namespace CobsIoAsync.Reasoning.Cobs

/-- Up to 254 nonzero bytes. -/
structure Block where
  data : List UInt8
  nonzero : 0 ∉ data
  length_le : data.length ≤ 254

namespace Block

def code (b : Block) : UInt8 := UInt8.ofNat (b.data.length + 1)

/-- A full block has code 255 and no zero behind it. -/
def full (b : Block) : Bool := b.data.length == 254

def bytes (b : Block) : List UInt8 := b.code :: b.data

@[simp] theorem code_toNat (b : Block) : b.code.toNat = b.data.length + 1 := by
  have h := b.length_le
  simp only [code, UInt8.toNat_ofNat']
  omega

theorem code_ne_zero (b : Block) : b.code ≠ 0 := by
  intro h
  have hn := b.code_toNat
  rw [h] at hn
  simp at hn

theorem zero_notMem_bytes (b : Block) : 0 ∉ b.bytes := by
  simp only [bytes, List.mem_cons, not_or]
  exact ⟨fun h => b.code_ne_zero h.symm, b.nonzero⟩

@[simp] theorem length_bytes (b : Block) : b.bytes.length = b.data.length + 1 := rfl

end Block

/-- The encoded form of a sequence of blocks. -/
def wire (bs : List Block) : List UInt8 := bs.flatMap Block.bytes

/-- What stands between a block and the next one. -/
def separator (full : Bool) : List UInt8 := if full then [] else [0]

/-- The bytes that follow a block with the given flag: the separator and the payload of the
blocks behind it. -/
def rest (full : Bool) : List Block → List UInt8
  | [] => []
  | b :: bs => separator full ++ b.data ++ rest b.full bs

/-- The payload that a sequence of blocks stands for. -/
def payload (bs : List Block) : List UInt8 := rest true bs

@[simp] theorem wire_nil : wire [] = [] := rfl

@[simp] theorem wire_cons (b : Block) (bs : List Block) : wire (b :: bs) = b.bytes ++ wire bs := rfl

theorem zero_notMem_wire (bs : List Block) : 0 ∉ wire bs := by
  simp only [wire, List.mem_flatMap, not_exists, not_and]
  exact fun b _ => b.zero_notMem_bytes

/-! ## The reference encoder -/

/-- A block that still has room: fewer than 254 nonzero bytes. -/
structure OpenBlock where
  data : List UInt8
  nonzero : 0 ∉ data
  length_lt : data.length < 254

namespace OpenBlock

def empty : OpenBlock := ⟨[], by simp, by decide⟩

def close (o : OpenBlock) : Block := ⟨o.data, o.nonzero, by have h := o.length_lt; omega⟩

/-- The block after one more nonzero byte; it may have become full. -/
def push (o : OpenBlock) (x : UInt8) (hx : x ≠ 0) : Block :=
  ⟨o.data ++ [x], by simpa using ⟨o.nonzero, hx.symm⟩, by
    have h := o.length_lt
    simp only [List.length_append, List.length_singleton]
    omega⟩

/-- The block after one more nonzero byte that leaves room. -/
def extend (o : OpenBlock) (x : UInt8) (hx : x ≠ 0) (h : o.data.length + 1 < 254) : OpenBlock :=
  ⟨o.data ++ [x], (o.push x hx).nonzero, by simpa using h⟩

@[simp] theorem data_empty : empty.data = [] := rfl

@[simp] theorem data_close (o : OpenBlock) : o.close.data = o.data := rfl

@[simp] theorem data_push (o : OpenBlock) (x : UInt8) (hx : x ≠ 0) :
    (o.push x hx).data = o.data ++ [x] := rfl

@[simp] theorem data_extend (o : OpenBlock) (x : UInt8) (hx : x ≠ 0) (h : o.data.length + 1 < 254) :
    (o.extend x hx h).data = o.data ++ [x] := rfl

@[simp] theorem full_close (o : OpenBlock) : o.close.full = false := by
  have h := o.length_lt
  simp only [Block.full, data_close, beq_eq_false_iff_ne]
  omega

theorem full_push (o : OpenBlock) (x : UInt8) (hx : x ≠ 0) (h : ¬ o.data.length + 1 < 254) :
    (o.push x hx).full = true := by
  have hl := o.length_lt
  simp only [Block.full, data_push, List.length_append, List.length_singleton, beq_iff_eq]
  omega

end OpenBlock

/-- The blocks of a payload behind the open block `o`. -/
def splitFrom (o : OpenBlock) : List UInt8 → List Block
  | [] => [o.close]
  | x :: xs =>
    if hx : x = 0 then o.close :: splitFrom .empty xs
    else if h : o.data.length + 1 < 254 then splitFrom (o.extend x hx h) xs
    else o.push x hx :: if xs = [] then [] else splitFrom .empty xs

/-- The blocks behind a full block: none if the payload ends there. -/
def splitAfterFull (xs : List UInt8) : List Block :=
  if xs = [] then [] else splitFrom .empty xs

def split (p : List UInt8) : List Block := splitFrom .empty p

/-- The reference encoding of a payload. -/
def encode (p : List UInt8) : List UInt8 := wire (split p)

theorem splitFrom_zero (o : OpenBlock) (xs : List UInt8) :
    splitFrom o (0 :: xs) = o.close :: splitFrom .empty xs := by
  rw [splitFrom, dif_pos rfl]

theorem splitFrom_extend (o : OpenBlock) {x : UInt8} (hx : x ≠ 0) (h : o.data.length + 1 < 254)
    (xs : List UInt8) : splitFrom o (x :: xs) = splitFrom (o.extend x hx h) xs := by
  rw [splitFrom, dif_neg hx, dif_pos h]

theorem splitFrom_push (o : OpenBlock) {x : UInt8} (hx : x ≠ 0) (h : ¬ o.data.length + 1 < 254)
    (xs : List UInt8) : splitFrom o (x :: xs) = o.push x hx :: splitAfterFull xs := by
  rw [splitFrom, dif_neg hx, dif_neg h, splitAfterFull]

/-- Induction over a payload as the encoder reads it: at its end, at a zero, at a byte that leaves
room in the open block, and at a byte that fills it. -/
theorem splitFrom_induction {motive : OpenBlock → List UInt8 → Prop}
    (nil : ∀ o, motive o [])
    (zero : ∀ o xs, motive .empty xs → motive o (0 :: xs))
    (extend : ∀ o x xs (hx : x ≠ 0) (h : o.data.length + 1 < 254),
      motive (o.extend x hx h) xs → motive o (x :: xs))
    (push : ∀ o x xs (_ : x ≠ 0) (_ : ¬ o.data.length + 1 < 254),
      motive .empty xs → motive o (x :: xs))
    (o : OpenBlock) (p : List UInt8) : motive o p := by
  induction p generalizing o with
  | nil => exact nil o
  | cons x xs ih =>
      by_cases hx : x = 0
      · subst hx; exact zero o xs (ih _)
      by_cases h : o.data.length + 1 < 254
      · exact extend o x xs hx h (ih _)
      · exact push o x xs hx h (ih _)

/-- The blocks of a payload stand for it, whatever came before. -/
theorem rest_splitFrom (o : OpenBlock) (p : List UInt8) (full : Bool) :
    rest full (splitFrom o p) = separator full ++ o.data ++ p := by
  induction o, p using splitFrom_induction generalizing full with
  | nil o => simp [splitFrom, rest]
  | zero o xs ih => simp [splitFrom_zero, rest, ih, separator]
  | extend o x xs hx h ih => simp [splitFrom_extend o hx h, ih]
  | push o x xs hx h ih =>
      rw [splitFrom_push o hx h, rest, o.full_push x hx h, splitAfterFull]
      split
      · subst xs; simp [rest]
      · simp [ih, separator]

theorem payload_split (p : List UInt8) : payload (split p) = p := by
  rw [payload, split, rest_splitFrom]
  simp [separator]

theorem split_ne_nil (p : List UInt8) : split p ≠ [] := by
  suffices h : ∀ o, splitFrom o p ≠ [] from h _
  intro o
  induction o, p using splitFrom_induction with
  | nil o => simp [splitFrom]
  | zero o xs ih => simp [splitFrom_zero]
  | extend o x xs hx h ih => rwa [splitFrom_extend o hx h]
  | push o x xs hx h ih => simp [splitFrom_push o hx h]

theorem zero_notMem_encode (p : List UInt8) : 0 ∉ encode p := zero_notMem_wire _

/-! ## The length of an encoding -/

/-- One byte for every 254 of the payload, and one for an empty payload. -/
def overhead (n : Nat) : Nat := if n = 0 then 1 else (n + 253) / 254

theorem overhead_le_overhead {m n : Nat} (h : m ≤ n) : overhead m ≤ overhead n := by
  simp only [overhead]
  split <;> split <;> omega

theorem overhead_pos (n : Nat) : 0 < overhead n := by
  simp only [overhead]
  split <;> omega

/-- The open block counts with the payload behind it: a zero takes no more room than it uses in
the payload, and a full block has paid for its own code byte. -/
theorem length_wire_splitFrom_le (o : OpenBlock) (p : List UInt8) :
    (wire (splitFrom o p)).length ≤
      o.data.length + p.length + overhead (o.data.length + p.length) := by
  induction o, p using splitFrom_induction with
  | nil o =>
      have hpos := overhead_pos o.data.length
      simp [splitFrom]
      omega
  | zero o xs ih =>
      have hmono := overhead_le_overhead
        (show xs.length ≤ o.data.length + (xs.length + 1) by omega)
      simp only [splitFrom_zero, wire_cons, List.length_append, Block.length_bytes,
        OpenBlock.data_close, List.length_cons, OpenBlock.data_empty, List.length_nil,
        Nat.zero_add] at ih ⊢
      omega
  | extend o x xs hx h ih =>
      rw [splitFrom_extend o hx h]
      simp only [OpenBlock.data_extend, List.length_append, List.length_cons] at ih ⊢
      rwa [show o.data.length + (xs.length + 1) = o.data.length + 1 + xs.length by omega]
  | push o x xs hx h ih =>
      have hl := o.length_lt
      rw [splitFrom_push o hx h, splitAfterFull]
      simp only [wire_cons, List.length_append, Block.length_bytes, OpenBlock.data_push,
        List.length_cons]
      -- A full block pays for its own code byte, unless it ends the input.
      split
      · subst xs
        have hpos := overhead_pos (o.data.length + 1)
        simp
        omega
      · rename_i hne
        have hlen := List.length_pos_iff.mpr hne
        simp only [OpenBlock.data_empty, List.length_nil, Nat.zero_add, overhead,
          if_neg (show xs.length ≠ 0 by omega),
          if_neg (show o.data.length + (xs.length + 1) ≠ 0 by omega)] at ih ⊢
        omega

/-- Without zeros every block but the last is full, and the bound is attained. -/
theorem length_wire_splitFrom_eq (o : OpenBlock) {p : List UInt8} (hp : 0 ∉ p) :
    (wire (splitFrom o p)).length =
      o.data.length + p.length + overhead (o.data.length + p.length) := by
  induction o, p using splitFrom_induction with
  | nil o =>
      have hl := o.length_lt
      simp only [splitFrom, wire_cons, wire_nil, List.append_nil, Block.length_bytes,
        OpenBlock.data_close, List.length_nil, Nat.add_zero, overhead]
      split <;> omega
  | zero o xs ih => exact absurd List.mem_cons_self hp
  | extend o x xs hx h ih =>
      rw [splitFrom_extend o hx h, ih (List.not_mem_of_not_mem_cons hp)]
      simp only [OpenBlock.data_extend, List.length_append, List.length_cons, List.length_nil,
        Nat.zero_add]
      rw [show o.data.length + (xs.length + 1) = o.data.length + 1 + xs.length by omega]
  | push o x xs hx h ih =>
      have hl := o.length_lt
      have hxs := ih (List.not_mem_of_not_mem_cons hp)
      rw [splitFrom_push o hx h, splitAfterFull]
      simp only [wire_cons, List.length_append, Block.length_bytes, OpenBlock.data_push,
        List.length_cons, List.length_nil, Nat.zero_add, overhead]
      by_cases hnil : xs = []
      · subst hnil
        simp
        omega
      · have hlen := List.length_pos_iff.mpr hnil
        simp only [OpenBlock.data_empty, List.length_nil, Nat.zero_add, overhead,
          if_neg (show xs.length ≠ 0 by omega)] at hxs
        rw [if_neg hnil, hxs, if_neg (show o.data.length + (xs.length + 1) ≠ 0 by omega)]
        omega

/-- The open block is written behind its code byte, and the payload behind it with no fewer bytes
than it has. -/
theorem length_lt_wire_splitFrom (o : OpenBlock) (p : List UInt8) :
    o.data.length + p.length < (wire (splitFrom o p)).length := by
  induction o, p using splitFrom_induction with
  | nil o => simp [splitFrom]
  | zero o xs ih =>
      simp only [splitFrom_zero, wire_cons, List.length_append, Block.length_bytes,
        OpenBlock.data_close, OpenBlock.data_empty, List.length_cons, List.length_nil] at ih ⊢
      omega
  | extend o x xs hx h ih =>
      rw [splitFrom_extend o hx h]
      simp only [OpenBlock.data_extend, List.length_append, List.length_cons, List.length_nil] at ih ⊢
      omega
  | push o x xs hx h ih =>
      rw [splitFrom_push o hx h, splitAfterFull]
      simp only [wire_cons, List.length_append, Block.length_bytes, OpenBlock.data_push,
        List.length_cons, OpenBlock.data_empty, List.length_nil] at ih ⊢
      by_cases hnil : xs = []
      · subst hnil
        simp
      · rw [if_neg hnil]
        omega

/-- A code byte pays for the zero that may stand between two blocks. -/
theorem length_rest_le (full : Bool) (bs : List Block) : (rest full bs).length ≤ (wire bs).length := by
  induction bs generalizing full with
  | nil => simp [rest]
  | cons b bs ih =>
      have hrest := ih b.full
      have hseparator : (separator full).length ≤ 1 := by cases full <;> simp [separator]
      simp only [rest, wire_cons, List.length_append, Block.length_bytes]
      omega

theorem length_lt_encode (p : List UInt8) : p.length < (encode p).length := by
  simpa [encode, split] using length_lt_wire_splitFrom .empty p

theorem length_encode_le (p : List UInt8) : (encode p).length ≤ p.length + overhead p.length := by
  simpa [encode, split] using length_wire_splitFrom_le .empty p

theorem length_encode_eq {p : List UInt8} (hp : 0 ∉ p) :
    (encode p).length = p.length + overhead p.length := by
  simpa [encode, split] using length_wire_splitFrom_eq .empty hp

end CobsIoAsync.Reasoning.Cobs
