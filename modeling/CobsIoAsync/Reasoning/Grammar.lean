import CobsIoAsync.Reasoning.Cobs

/-!
# Grammar — how a zero-free string divides into blocks

Every zero-free string is a sequence of blocks of which the last may break off.  The division is
unique, and a string without a broken block is the reference encoding of its payload, up to an
empty block behind a full one at its end.
-/

namespace CobsIoAsync.Reasoning.Cobs

/-- A block that breaks off: its code announces more bytes than follow. -/
structure Stub where
  code : UInt8
  data : List UInt8
  nonzero : 0 ∉ data
  short : data.length + 1 < code.toNat

def Stub.bytes (s : Stub) : List UInt8 := s.code :: s.data

theorem Stub.code_ne_zero (s : Stub) : s.code ≠ 0 := by
  intro h
  have hs := s.short
  rw [h] at hs
  exact absurd hs (by simp)

/-- A sequence of blocks, the last of them broken or not. -/
inductive Division where
  | done
  | broken (stub : Stub)
  | block (b : Block) (behind : Division)

namespace Division

/-- The string that is divided. -/
def bytes : Division → List UInt8
  | done => []
  | broken stub => stub.bytes
  | block b behind => b.bytes ++ behind.bytes

/-- What the blocks add to the payload behind a block with the given flag. -/
def rest (full : Bool) : Division → List UInt8
  | done => []
  | broken stub => separator full ++ stub.data
  | block b behind => separator full ++ b.data ++ behind.rest b.full

/-- The bytes that the blocks stand for. -/
def payload (division : Division) : List UInt8 := division.rest true

/-- No block breaks off. -/
def complete : Division → Bool
  | done => true
  | broken _ => false
  | block _ behind => behind.complete

/-- A sequence of whole blocks. -/
def ofBlocks : List Block → Division
  | [] => done
  | b :: bs => block b (ofBlocks bs)

@[simp] theorem bytes_ofBlocks (bs : List Block) : (ofBlocks bs).bytes = wire bs := by
  induction bs with
  | nil => rfl
  | cons b bs ih => rw [ofBlocks, bytes, ih, wire_cons]

@[simp] theorem rest_ofBlocks (bs : List Block) (full : Bool) :
    (ofBlocks bs).rest full = Cobs.rest full bs := by
  induction bs generalizing full with
  | nil => rfl
  | cons b bs ih => rw [ofBlocks, rest, ih, Cobs.rest]

@[simp] theorem complete_ofBlocks (bs : List Block) : (ofBlocks bs).complete = true := by
  induction bs with
  | nil => rfl
  | cons b bs ih => exact ih

theorem eq_ofBlocks {division : Division} (h : division.complete = true) :
    ∃ bs, division = ofBlocks bs := by
  induction division with
  | done => exact ⟨[], rfl⟩
  | broken stub => cases h
  | block b behind ih =>
      obtain ⟨bs, rfl⟩ := ih h
      exact ⟨b :: bs, rfl⟩

/-- Every zero-free string divides: its first byte tells where the next block begins. -/
theorem exists_of_notMem {seg : List UInt8} (h : 0 ∉ seg) :
    ∃ division : Division, division.bytes = seg := by
  induction hn : seg.length using Nat.strongRecOn generalizing seg with
  | ind n ih =>
      cases seg with
      | nil => exact ⟨done, rfl⟩
      | cons code data =>
          simp only [List.mem_cons, not_or] at h
          have hcode : code.toNat ≠ 0 := fun hzero =>
            h.1 (UInt8.toNat_inj.mp (by simpa using hzero.symm))
          have hlt := code.toNat_lt
          by_cases hshort : data.length + 1 < code.toNat
          · exact ⟨broken ⟨code, data, h.2, hshort⟩, rfl⟩
          · have htake : (data.take (code.toNat - 1)).length = code.toNat - 1 := by
              rw [List.length_take]
              omega
            let b : Block := ⟨data.take (code.toNat - 1),
              fun hmem => h.2 (List.mem_of_mem_take hmem), by omega⟩
            have hb : b.code = code := by
              apply UInt8.toNat_inj.mp
              rw [b.code_toNat, htake]
              omega
            obtain ⟨behind, hbehind⟩ := ih (data.drop (code.toNat - 1)).length
              (by simp only [List.length_cons] at hn; rw [List.length_drop]; omega)
              (fun hmem => h.2 (List.mem_of_mem_drop hmem)) rfl
            refine ⟨block b behind, ?_⟩
            show b.code :: b.data ++ behind.bytes = code :: data
            rw [hb, hbehind, List.cons_append, List.take_append_drop]

/-- A block is determined by its code. -/
theorem block_inj {b c : Block} {xs ys : List UInt8} (h : b.bytes ++ xs = c.bytes ++ ys) :
    b = c ∧ xs = ys := by
  simp only [Block.bytes, List.cons_append, List.cons.injEq] at h
  obtain ⟨hcode, hdata⟩ := h
  have hlen : b.data.length = c.data.length := by
    have hc := congrArg UInt8.toNat hcode
    simpa using hc
  obtain ⟨hb, hrest⟩ := List.append_inj hdata hlen
  obtain ⟨data, _, _⟩ := b
  obtain rfl : data = c.data := hb
  exact ⟨rfl, hrest⟩

theorem block_ne_stub (b : Block) (stub : Stub) (xs : List UInt8) :
    b.bytes ++ xs ≠ stub.bytes := by
  intro h
  simp only [Block.bytes, Stub.bytes, List.cons_append, List.cons.injEq] at h
  have hcode := congrArg UInt8.toNat h.1
  have hdata := congrArg List.length h.2
  have hshort := stub.short
  rw [b.code_toNat] at hcode
  rw [List.length_append] at hdata
  omega

theorem bytes_injective : Function.Injective bytes := by
  intro d d' h
  induction d generalizing d' with
  | done => cases d' with
    | done => rfl
    | broken stub => cases h
    | block b behind => cases h
  | broken stub => cases d' with
    | done => cases h
    | broken stub' =>
        obtain ⟨code, data, _, _⟩ := stub
        simp only [bytes, Stub.bytes, List.cons.injEq] at h
        obtain ⟨rfl, rfl⟩ := h
        rfl
    | block b behind => exact absurd h.symm (block_ne_stub b stub _)
  | block b behind ih => cases d' with
    | done => cases h
    | broken stub => exact absurd h (block_ne_stub b stub _)
    | block c behind' =>
        obtain ⟨rfl, hbehind⟩ := block_inj h
        rw [ih hbehind]

end Division

/-- A nonempty concatenation of blocks. -/
def WellFormed (seg : List UInt8) : Prop := ∃ bs, bs ≠ [] ∧ wire bs = seg

/-- `out` is what the blocks of `seg` stand for, the last of them broken or not. -/
def StandsFor (seg out : List UInt8) : Prop :=
  ∃ division : Division, division.bytes = seg ∧ division.payload = out

theorem exists_standsFor {seg : List UInt8} (h : 0 ∉ seg) : ∃ out, StandsFor seg out := by
  obtain ⟨division, hdivision⟩ := Division.exists_of_notMem h
  exact ⟨division.payload, division, hdivision, rfl⟩

theorem StandsFor.unique {seg out out' : List UInt8} (h : StandsFor seg out)
    (h' : StandsFor seg out') : out = out' := by
  obtain ⟨division, rfl, rfl⟩ := h
  obtain ⟨division', hbytes, rfl⟩ := h'
  rw [Division.bytes_injective hbytes]

/-- The blocks stand for no more bytes than they take. -/
theorem Division.length_rest_le (division : Division) (full : Bool) :
    (division.rest full).length ≤ division.bytes.length := by
  have hseparator : ∀ full, (separator full).length ≤ 1 := by decide
  have hone := hseparator full
  induction division generalizing full with
  | done => exact Nat.le_refl 0
  | broken stub =>
      simp only [Division.rest, Division.bytes, Stub.bytes, List.length_append, List.length_cons]
      omega
  | block b behind ih =>
      have hbehind := ih b.full (hseparator b.full)
      simp only [Division.rest, Division.bytes, List.length_append, Block.length_bytes]
      omega

theorem StandsFor.length_le {seg out : List UInt8} (h : StandsFor seg out) :
    out.length ≤ seg.length := by
  obtain ⟨division, rfl, rfl⟩ := h
  exact division.length_rest_le true

theorem standsFor_wire (bs : List Block) : StandsFor (wire bs) (payload bs) :=
  ⟨.ofBlocks bs, Division.bytes_ofBlocks bs, Division.rest_ofBlocks bs true⟩

/-- A nonempty string is well formed if its division is complete. -/
theorem wellFormed_iff {division : Division} (hne : division.bytes ≠ []) :
    WellFormed division.bytes ↔ division.complete = true := by
  constructor
  · rintro ⟨bs, -, hbs⟩
    rw [← Division.bytes_ofBlocks] at hbs
    rw [← Division.bytes_injective hbs, Division.complete_ofBlocks]
  · intro h
    obtain ⟨bs, rfl⟩ := Division.eq_ofBlocks h
    refine ⟨bs, ?_, (Division.bytes_ofBlocks bs).symm⟩
    rintro rfl
    exact hne rfl

/-! ## Which bodies the reference encoder produces -/

/-- A block that the open block `o` becomes is split off by the encoder. -/
theorem splitFrom_full {b : Block} (hfull : b.full = true) {o : OpenBlock} {data : List UInt8}
    (h : o.data ++ data = b.data) (xs : List UInt8) :
    splitFrom o (data ++ xs) = b :: splitAfterFull xs := by
  have hlen : b.data.length = 254 := by simpa [Block.full] using hfull
  induction data generalizing o with
  | nil =>
      have hl := o.length_lt
      rw [← h, List.append_nil] at hlen
      omega
  | cons x data ih =>
      have hx : x ≠ 0 := by
        rintro rfl
        exact b.nonzero (h ▸ by simp)
      have hsum := congrArg List.length h
      simp only [List.length_append, List.length_cons] at hsum
      rw [List.cons_append]
      by_cases hroom : o.data.length + 1 < 254
      · rw [splitFrom_extend o hx hroom]
        exact ih (by simpa using h)
      · obtain rfl : data = [] := List.length_eq_zero_iff.mp (by omega)
        rw [splitFrom_push o hx hroom, List.nil_append]
        congr 1
        obtain ⟨bdata, _, _⟩ := b
        obtain rfl : o.data ++ [x] = bdata := h
        rfl

theorem splitFrom_short {b : Block} (hfull : b.full = false) {o : OpenBlock} {data : List UInt8}
    (h : o.data ++ data = b.data) (xs : List UInt8) :
    ∃ o' : OpenBlock, o'.close = b ∧ splitFrom o (data ++ xs) = splitFrom o' xs := by
  have hlen : b.data.length < 254 := by
    have hle := b.length_le
    simp only [Block.full, beq_eq_false_iff_ne] at hfull
    omega
  induction data generalizing o with
  | nil =>
      refine ⟨o, ?_, rfl⟩
      obtain ⟨bdata, _, _⟩ := b
      obtain rfl : o.data = bdata := by simpa using h
      rfl
  | cons x data ih =>
      have hx : x ≠ 0 := by
        rintro rfl
        exact b.nonzero (h ▸ by simp)
      have hsum := congrArg List.length h
      simp only [List.length_append, List.length_cons] at hsum
      rw [List.cons_append, splitFrom_extend o hx (by omega)]
      exact ih (by simpa using h)

/-- The encoder splits off a full block, and goes on if there is more. -/
theorem split_full {b : Block} (hfull : b.full = true) (xs : List UInt8) :
    split (b.data ++ xs) = b :: splitAfterFull xs :=
  splitFrom_full hfull rfl xs

theorem split_short_zero {b : Block} (hfull : b.full = false) (xs : List UInt8) :
    split (b.data ++ 0 :: xs) = b :: split xs := by
  obtain ⟨o, rfl, ho⟩ := splitFrom_short hfull (show OpenBlock.empty.data ++ b.data = b.data from rfl)
    (0 :: xs)
  rw [split, ho, splitFrom_zero, split]

theorem split_short {b : Block} (hfull : b.full = false) : split b.data = [b] := by
  obtain ⟨o, rfl, ho⟩ := splitFrom_short hfull (show OpenBlock.empty.data ++ b.data = b.data from rfl) []
  rw [List.append_nil] at ho
  rw [split, ho, splitFrom]

/-- A block without data. -/
def emptyBlock : Block := OpenBlock.empty.close

/-- Behind the flag of a block, only nothing or an empty block behind a full one adds nothing. -/
theorem rest_eq_nil {full : Bool} {bs : List Block} (h : rest full bs = []) :
    bs = [] ∨ full = true ∧ bs = [emptyBlock] := by
  cases bs with
  | nil => exact .inl rfl
  | cons b bs =>
      simp only [rest, List.append_eq_nil_iff] at h
      obtain ⟨⟨hseparator, hdata⟩, hrest⟩ := h
      have hb : b = emptyBlock := by
        obtain ⟨data, _, _⟩ := b
        obtain rfl : data = [] := hdata
        rfl
      subst hb
      have hbs : bs = [] := by
        cases bs with
        | nil => rfl
        | cons c cs => cases hrest
      subst hbs
      refine .inr ⟨?_, rfl⟩
      by_contra hfull
      simp [separator, hfull] at hseparator

/-- Blocks are those of their payload, up to an empty block behind a full one at the end. -/
theorem blocks_canonical (b : Block) (bs : List Block) :
    b :: bs = split (payload (b :: bs)) ∨
      ∃ front last, last.full = true ∧ split (payload (b :: bs)) = front ++ [last] ∧
        b :: bs = front ++ [last, emptyBlock] := by
  induction bs generalizing b with
  | nil =>
      left
      show [b] = split (b.data ++ [])
      by_cases hfull : b.full = true
      · rw [split_full hfull]
        rfl
      · rw [List.append_nil, split_short (Bool.eq_false_iff.mpr hfull)]
  | cons c cs ih =>
      have hpayload : payload (b :: c :: cs) = b.data ++ (separator b.full ++ payload (c :: cs)) := by
        simp [payload, rest, separator]
      rw [hpayload]
      -- the encoder goes on behind `b` as it does from the start
      have hgo : split (b.data ++ (separator b.full ++ payload (c :: cs))) =
          b :: split (payload (c :: cs)) →
          b :: c :: cs = split (b.data ++ (separator b.full ++ payload (c :: cs))) ∨
          ∃ front last, last.full = true ∧
            split (b.data ++ (separator b.full ++ payload (c :: cs))) = front ++ [last] ∧
            b :: c :: cs = front ++ [last, emptyBlock] := by
        intro hsplit
        rw [hsplit]
        rcases ih c with h | ⟨front, last, hlast, hfront, hblocks⟩
        · exact .inl (congrArg (b :: ·) h)
        · exact .inr ⟨b :: front, last, hlast, congrArg (b :: ·) hfront, congrArg (b :: ·) hblocks⟩
      by_cases hfull : b.full = true
      · by_cases hnil : payload (c :: cs) = []
        · -- nothing follows the full block, so it ends the payload
          right
          rcases rest_eq_nil hnil with h | ⟨-, h⟩
          · cases h
          · refine ⟨[], b, hfull, ?_, by rw [h]; rfl⟩
            rw [hnil, hfull]
            exact split_full hfull []
        · apply hgo
          rw [hfull]
          show split (b.data ++ payload (c :: cs)) = _
          rw [split_full hfull, splitAfterFull, if_neg hnil, split]
      · apply hgo
        rw [Bool.eq_false_iff.mpr hfull]
        exact split_short_zero (Bool.eq_false_iff.mpr hfull) _

end CobsIoAsync.Reasoning.Cobs
