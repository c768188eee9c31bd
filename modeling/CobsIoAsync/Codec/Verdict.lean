import CobsIoAsync.Codec.Walk
import CobsIoAsync.Reasoning.Grammar

/-!
# Codec.Verdict — what the decoder says about each source

A source is padding, a zero-free segment, and a delimiter or the end.  The blocks of the segment
decide what is written and how the decoder returns.
-/

namespace CobsIoAsync.Codec

open Reasoning Cobs

variable {n : Nat}

/-! ## The walk over a division -/

/-- A block that breaks off leaves the decoder inside of it. -/
theorem walk_short (full : Bool) (data : List UInt8) (hdata : 0 ∉ data) (k : UInt8)
    (hk : data.length + 1 < k.toNat) :
    ∃ k' : UInt8, 1 < k' ∧ DecoderState.walk ⟨k, full⟩ data = (data, ⟨k', full⟩) := by
  induction data generalizing k with
  | nil => exact ⟨k, by rw [UInt8.lt_iff_toNat_lt]; simpa using hk, rfl⟩
  | cons x xs ih =>
      simp only [List.mem_cons, not_or] at hdata
      simp only [List.length_cons] at hk
      have hone : (1 : UInt8) ≤ k := by
        rw [UInt8.le_iff_toNat_le, UInt8.toNat_one]
        omega
      have hgt : ¬ k ≤ 1 := by
        rw [UInt8.le_iff_toNat_le, UInt8.toNat_one]
        omega
      have hsub : (k - 1).toNat = k.toNat - 1 := UInt8.toNat_sub_of_le _ _ hone
      obtain ⟨k', hk', hwalk⟩ := ih hdata.2 (k - 1) (by omega)
      refine ⟨k', hk', ?_⟩
      simp only [DecoderState.walk, DecoderState.push, if_neg (Ne.symm hdata.1), if_neg hgt, hwalk,
        PushResult.written, List.singleton_append]

/-- What the first byte of a block hands out. -/
theorem written_start (byte k : UInt8) (full : Bool) :
    PushResult.written byte (if k = 0 ∨ full = true then .skip else .writeSentinel) =
      separator (k == 0 || full) := by
  by_cases h : k = 0 ∨ full = true
  · rw [if_pos h]
    rcases h with rfl | rfl <;> simp [PushResult.written, separator]
  · rw [if_neg h]
    simp only [not_or] at h
    simp [PushResult.written, separator, h.1, h.2]

theorem walk_stub (stub : Stub) (k : UInt8) (full : Bool) (hk : k ≤ 1) :
    ∃ state : DecoderState, 1 < state.nextSentinelIdx ∧
      DecoderState.walk ⟨k, full⟩ stub.bytes = (separator (k == 0 || full) ++ stub.data, state) := by
  obtain ⟨k', hk', hwalk⟩ := walk_short (stub.code == 0xFF) stub.data stub.nonzero stub.code stub.short
  refine ⟨⟨k', stub.code == 0xFF⟩, hk', ?_⟩
  simp only [Stub.bytes, DecoderState.walk, DecoderState.push, if_neg stub.code_ne_zero, if_pos hk,
    hwalk, written_start]

/-- The walk hands out what the blocks stand for, and ends inside a block if the last breaks
off. -/
theorem walk_division (division : Division) (k : UInt8) (full : Bool) (hk : k ≤ 1) :
    ∃ state : DecoderState, (1 < state.nextSentinelIdx ↔ division.complete = false) ∧
      DecoderState.walk ⟨k, full⟩ division.bytes = (division.rest (k == 0 || full), state) := by
  induction division generalizing k full with
  | done => exact ⟨⟨k, full⟩, by simpa [Division.complete] using hk, rfl⟩
  | broken stub =>
      obtain ⟨state, hstate, hwalk⟩ := walk_stub stub k full hk
      exact ⟨state, by simpa [Division.complete] using hstate, hwalk⟩
  | block b behind ih =>
      obtain ⟨state, hstate, hwalk⟩ := ih 1 b.full (by decide)
      refine ⟨state, hstate, ?_⟩
      rw [Division.bytes, DecoderState.walk_append, walk_block b k full hk, hwalk]
      rfl

/-! ## Too small a destination -/

/-- A byte that is handed out to a full destination ends the loop. -/
theorem decodeLoop_full {byte : UInt8} (hbyte : byte ≠ 0) (source : List UInt8) (idx : Nat)
    (state : DecoderState) {written : Nat} (dest : Bytes n) (hfull : n ≤ written)
    (hout : (state.push byte).1.written byte ≠ []) :
    decodeLoop (byte :: source) idx state true written dest =
      (.error (.destination .outOfBounds), dest) := by
  have hp := push_nonzero hbyte state
  rw [decodeLoop]
  simp only [Bool.not_true, Bool.false_and, Bool.false_eq_true, if_false]
  generalize state.push byte = p at hp hout ⊢
  obtain ⟨r, state'⟩ := p
  cases r with
  | skip => exact absurd rfl hout
  | addSingle => simp only [Bytes.set?_eq_none hfull]
  | writeSentinel => simp only [Bytes.set?_eq_none hfull]
  | endOfFrame => exact absurd rfl hp.1
  | invalidFrame => exact absurd rfl hp.2

theorem length_written_le (byte : UInt8) (result : PushResult) : (result.written byte).length ≤ 1 := by
  cases result <;> simp [PushResult.written]

/-- Zero-free bytes that hand out too much fill the destination and run out of it. -/
theorem decodeLoop_overrun {bytes : List UInt8} (hbytes : 0 ∉ bytes) (source : List UInt8)
    (idx : Nat) (state : DecoderState) {out : List UInt8} {orig dest : Bytes n}
    (hdest : orig.Overwrites out dest) (hover : n < (out ++ (state.walk bytes).1).length) :
    ∃ dest', decodeLoop (bytes ++ source) idx state true out.length dest =
        (.error (.destination .outOfBounds), dest') ∧
      dest'.toList = (out ++ (state.walk bytes).1).take n := by
  -- the walk is followed up to the byte that finds the destination full
  induction bytes generalizing idx state out dest with
  | nil =>
      have hle := hdest.length_le
      rw [DecoderState.walk_nil, List.append_nil] at hover
      omega
  | cons byte bytes ih =>
      simp only [List.mem_cons, not_or] at hbytes
      simp only [DecoderState.walk, ← List.append_assoc] at hover ⊢
      by_cases hroom : (out ++ (state.push byte).1.written byte).length ≤ n
      · obtain ⟨dest₁, hrun₁, hdest₁⟩ := decodeLoop_push (Ne.symm hbytes.1) (bytes ++ source) idx
          state hdest hroom
        obtain ⟨dest₂, hrun₂, hdest₂⟩ := ih hbytes.2 (idx + 1) (state.push byte).2 hdest₁ hover
        refine ⟨dest₂, ?_, hdest₂⟩
        rw [List.cons_append, hrun₁, hrun₂]
      · -- the destination holds `out` and nothing else
        have hle := hdest.length_le
        have hone := length_written_le byte (state.push byte).1
        rw [List.length_append] at hroom
        have hn : out.length = n := by omega
        refine ⟨dest, decodeLoop_full (Ne.symm hbytes.1) _ idx state dest (by omega) ?_, ?_⟩
        · intro hnil
          rw [hnil, List.length_nil] at hroom
          omega
        · have hdrop : orig.toList.drop out.length = [] :=
            List.drop_eq_nil_of_le (by rw [Bytes.length_toList]; omega)
          rw [hdest.toList_eq, hdrop, List.append_nil, List.append_assoc, ← hn, List.take_left]

/-! ## The verdict -/

/-- `source` is `z` zeros and its maximal zero-free run `seg`; behind it stands `tail`, which is
empty or begins with the delimiter. -/
structure Layout (source : List UInt8) (z : Nat) (seg tail : List UInt8) : Prop where
  source_eq : source = List.replicate z 0 ++ (seg ++ tail)
  notMem : 0 ∉ seg
  delimiter : tail = [] ∨ ∃ rest, tail = 0 :: rest
  padding : seg = [] → tail = []

theorem exists_layout (source : List UInt8) : ∃ z seg tail, Layout source z seg tail := by
  induction source with
  | nil => exact ⟨0, [], [], rfl, List.not_mem_nil, .inl rfl, fun _ => rfl⟩
  | cons byte source ih =>
      obtain ⟨z, seg, tail, h⟩ := ih
      by_cases hbyte : byte = 0
      · subst hbyte
        by_cases hz : z = 0 ∧ seg ≠ []
        · exact ⟨1, seg, tail, by rw [h.source_eq, hz.1]; rfl, h.notMem, h.delimiter, h.padding⟩
        · refine ⟨z + 1, seg, tail, ?_, h.notMem, h.delimiter, h.padding⟩
          rw [h.source_eq, List.replicate_succ, List.cons_append]
      · cases z with
        | zero =>
            refine ⟨0, byte :: seg, tail, by rw [h.source_eq]; rfl, ?_, h.delimiter, fun h => by cases h⟩
            simp [h.notMem, Ne.symm hbyte]
        | succ z =>
            refine ⟨0, [byte], source, rfl, by simpa using Ne.symm hbyte, .inr ?_, fun h => by cases h⟩
            exact ⟨_, h.source_eq⟩

/-- How the decoder returns for a segment whose blocks stand for `out`, and the destination it
leaves. -/
structure Verdict (source : List UInt8) (z : Nat) (seg tail out : List UInt8) (dest : Bytes n)
    (r : DecodeResult × Bytes n) : Prop where
  empty : r.1 = .error .emptyFrame ↔ seg = []
  overrun : seg ≠ [] → (r.1 = .error (.destination .outOfBounds) ↔ n < out.length)
  filled : n < out.length → r.2.toList = out.take n
  delimited : out.length ≤ n → tail ≠ [] → WellFormed seg →
    r.1 = .ok ⟨out.length, z + seg.length + 1⟩
  invalid : out.length ≤ n → tail ≠ [] → ¬ WellFormed seg →
    r.1 = .error (.invalidFrame ⟨z + seg.length + 1, out.length, none⟩)
  undelimited : out.length ≤ n → tail = [] → WellFormed seg → r.1 = .ok ⟨out.length, source.length⟩
  truncated : out.length ≤ n → tail = [] → seg ≠ [] → ¬ WellFormed seg →
    r.1 = .error .unexpectedSourceEof
  written : out.length ≤ n → r.2.toList = out ++ dest.toList.drop out.length

/-- A source of zeros is an empty frame. -/
theorem decodeSlice_zeros (z : Nat) (dest : Bytes n) :
    decodeSlice (List.replicate z 0) dest = (.error .emptyFrame, dest) := by
  have hpadding := decodeLoop_padding z [] 0 .new 0 dest
  rw [List.append_nil] at hpadding
  rw [decodeSlice, hpadding]
  rfl

/-- Behind the padding the loop goes over the segment. -/
theorem decodeSlice_segment (z : Nat) {seg : List UInt8} (hne : seg ≠ []) (hnotMem : 0 ∉ seg)
    (tail : List UInt8) (dest : Bytes n) :
    decodeSlice (List.replicate z 0 ++ (seg ++ tail)) dest =
      decodeLoop (seg ++ tail) z .new true 0 dest := by
  obtain ⟨byte, bytes, rfl⟩ := List.exists_cons_of_ne_nil hne
  simp only [List.mem_cons, not_or] at hnotMem
  rw [decodeSlice, decodeLoop_padding, Nat.zero_add]
  exact decodeLoop_start (Ne.symm hnotMem.1) (bytes ++ tail) z .new 0 dest

/-- At the end of the source the state decides. -/
theorem decodeLoop_nil (idx : Nat) (state : DecoderState) (written : Nat) (dest : Bytes n) :
    decodeLoop [] idx state true written dest =
      (if state.nextSentinelIdx > 1 then .error .unexpectedSourceEof else .ok ⟨written, idx⟩,
        dest) := by
  rw [decodeLoop]
  split <;> rfl

/-- At the delimiter as well. -/
theorem decodeLoop_delimiter (rest : List UInt8) (idx : Nat) (state : DecoderState) (written : Nat)
    (dest : Bytes n) :
    decodeLoop (0 :: rest) idx state true written dest =
      (if state.nextSentinelIdx > 1 then .error (.invalidFrame ⟨idx + 1, written, none⟩)
        else .ok ⟨written, idx + 1⟩, dest) := by
  rw [decodeLoop]
  by_cases h : state.nextSentinelIdx > 1
  · simp only [Bool.not_true, Bool.false_and, Bool.false_eq_true, if_false, DecoderState.push,
      if_true, if_pos h]
  · simp only [Bool.not_true, Bool.false_and, Bool.false_eq_true, if_false, DecoderState.push,
      if_true, if_neg h]

/-- What the decoder returns when the payload fits: a delimiter is consumed with the segment. -/
def returned (complete : Bool) (z : Nat) (seg tail out : List UInt8) : DecodeResult :=
  match complete, tail with
  | true, [] => .ok ⟨out.length, z + seg.length⟩
  | true, _ :: _ => .ok ⟨out.length, z + seg.length + 1⟩
  | false, [] => .error .unexpectedSourceEof
  | false, _ :: _ => .error (.invalidFrame ⟨z + seg.length + 1, out.length, none⟩)

/-- The decoder goes through the blocks of the segment if what they stand for fits. -/
theorem decodeSlice_fits {source : List UInt8} {z : Nat} {tail : List UInt8} {division : Division}
    (hlayout : Layout source z division.bytes tail) (hne : division.bytes ≠ []) (dest : Bytes n)
    (hroom : division.payload.length ≤ n) :
    ∃ dest', decodeSlice source dest =
        (returned division.complete z division.bytes tail division.payload, dest') ∧
      dest.Overwrites division.payload dest' := by
  obtain ⟨state, hstate, hwalk⟩ := walk_division division 0 false (by decide)
  have hout : (DecoderState.new.walk division.bytes).1 = division.payload := congrArg Prod.fst hwalk
  have hend : (DecoderState.new.walk division.bytes).2 = state := congrArg Prod.snd hwalk
  obtain ⟨dest', hrun, hdest'⟩ := decodeLoop_walk hlayout.notMem tail z .new (.refl dest)
    (by rwa [hout, List.nil_append])
  rw [List.length_nil, ← decodeSlice_segment z hne hlayout.notMem, ← hlayout.source_eq, hout, hend,
    List.nil_append] at hrun
  rw [hout, List.nil_append] at hdest'
  refine ⟨dest', ?_, hdest'⟩
  rcases hlayout.delimiter with rfl | ⟨rest, rfl⟩
  · simp only [hrun, decodeLoop_nil, gt_iff_lt, hstate]
    cases division.complete <;> rfl
  · simp only [hrun, decodeLoop_delimiter, gt_iff_lt, hstate]
    cases division.complete <;> rfl

/-- It stops as soon as the destination is full. -/
theorem decodeSlice_overrun {source : List UInt8} {z : Nat} {tail : List UInt8}
    {division : Division} (hlayout : Layout source z division.bytes tail) (dest : Bytes n)
    (hover : n < division.payload.length) :
    ∃ dest', decodeSlice source dest = (.error (.destination .outOfBounds), dest') ∧
      dest'.toList = division.payload.take n := by
  have hne : division.bytes ≠ [] := by
    intro h
    obtain rfl : division = .done := Division.bytes_injective h
    exact absurd hover (Nat.not_lt_zero n)
  obtain ⟨state, -, hwalk⟩ := walk_division division 0 false (by decide)
  have hout : (DecoderState.new.walk division.bytes).1 = division.payload := congrArg Prod.fst hwalk
  obtain ⟨dest', hrun, hdest'⟩ := decodeLoop_overrun hlayout.notMem tail z .new (.refl dest)
    (by rwa [hout, List.nil_append])
  rw [List.length_nil, ← decodeSlice_segment z hne hlayout.notMem, ← hlayout.source_eq] at hrun
  rw [hout, List.nil_append] at hdest'
  exact ⟨dest', hrun, hdest'⟩

theorem not_wellFormed_nil : ¬ WellFormed [] := by
  rintro ⟨bs, hbs, hwire⟩
  obtain ⟨b, bs, rfl⟩ := List.exists_cons_of_ne_nil hbs
  cases hwire

theorem decodeSlice_verdict {source : List UInt8} {z : Nat} {seg tail out : List UInt8}
    (hlayout : Layout source z seg tail) (hout : StandsFor seg out) (dest : Bytes n) :
    Verdict source z seg tail out dest (decodeSlice source dest) := by
  obtain ⟨division, rfl, rfl⟩ := hout
  have hlen : source.length = z + (division.bytes.length + tail.length) := by
    rw [hlayout.source_eq]
    simp
  by_cases hseg : division.bytes = []
  · -- only padding
    obtain rfl : division = .done := Division.bytes_injective hseg
    obtain rfl : tail = [] := hlayout.padding rfl
    have hrun := decodeSlice_zeros z dest
    obtain rfl : source = List.replicate z 0 := by simpa [Division.bytes] using hlayout.source_eq
    rw [hrun]
    constructor
    · simp [Division.bytes]
    · exact fun h => absurd rfl h
    · exact fun h => absurd h (Nat.not_lt_zero n)
    · exact fun _ h => absurd rfl h
    · exact fun _ h => absurd rfl h
    · exact fun _ _ h => absurd h not_wellFormed_nil
    · exact fun _ _ h => absurd rfl h
    · exact fun _ => rfl
  by_cases hover : n < division.payload.length
  · obtain ⟨dest', hrun, hdest'⟩ := decodeSlice_overrun hlayout dest hover
    have hroom : ¬ division.payload.length ≤ n := Nat.not_le_of_lt hover
    rw [hrun]
    constructor
    · simp [hseg]
    · simp [hover]
    · exact fun _ => hdest'
    all_goals exact fun h => absurd h hroom
  · obtain ⟨dest', hrun, hdest'⟩ := decodeSlice_fits hlayout hseg dest (Nat.not_lt.mp hover)
    have hwf := wellFormed_iff hseg
    rw [hrun]
    constructor
    · rcases tail with _ | ⟨_, _⟩ <;> cases division.complete <;> simp [returned, hseg]
    · rcases tail with _ | ⟨_, _⟩ <;> cases division.complete <;> simp [returned, hover]
    · exact fun h => absurd h hover
    · intro _ htail hwell
      obtain ⟨byte, rest, rfl⟩ := List.exists_cons_of_ne_nil htail
      rw [hwf.mp hwell, returned]
    · intro _ htail hbroken
      obtain ⟨byte, rest, rfl⟩ := List.exists_cons_of_ne_nil htail
      rw [Bool.eq_false_iff.mpr (mt hwf.mpr hbroken), returned]
    · rintro _ rfl hwell
      rw [hwf.mp hwell, returned, hlen, List.length_nil, Nat.add_zero]
    · rintro _ rfl _ hbroken
      rw [Bool.eq_false_iff.mpr (mt hwf.mpr hbroken), returned]
    · exact fun _ => hdest'

/-- A frame that is accepted is one of whole blocks, which stand for its payload. -/
theorem Verdict.accepted {source : List UInt8} {z : Nat} {seg tail out : List UInt8}
    {dest dest' : Bytes n} {len consumed : Nat}
    (h : Verdict source z seg tail out dest (.ok ⟨len, consumed⟩, dest')) :
    WellFormed seg ∧ len = out.length ∧ dest'.toList.take len = out := by
  have hseg : seg ≠ [] := fun hnil => by cases h.empty.mpr hnil
  have hroom : out.length ≤ n := by
    apply Nat.not_lt.mp
    intro hover
    cases (h.overrun hseg).mpr hover
  -- of the four verdicts with enough room only the two on whole blocks are `ok`
  have hlen : WellFormed seg ∧ len = out.length := by
    by_cases hwell : WellFormed seg
    · refine ⟨hwell, ?_⟩
      by_cases htail : tail = []
      · cases h.undelimited hroom htail hwell
        rfl
      · cases h.delimited hroom htail hwell
        rfl
    · exfalso
      by_cases htail : tail = []
      · cases h.truncated hroom htail hseg hwell
      · cases h.invalid hroom htail hwell
  have hwritten : dest'.toList = out ++ dest.toList.drop out.length := h.written hroom
  refine ⟨hlen.1, hlen.2, ?_⟩
  rw [hlen.2, hwritten, List.take_left]

end CobsIoAsync.Codec
