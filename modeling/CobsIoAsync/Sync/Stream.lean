import CobsIoAsync.Codec.Verdict
import CobsIoAsync.Reasoning.Segments
import CobsIoAsync.Sync.Model

/-!
# Sync.Stream — decoding a whole stream frame by frame

A caller of `decode_to_slice` that always continues behind the bytes it consumed visits the
nonempty segments of a delimited stream in order, and what it makes of each depends on the segment
alone.
-/

namespace CobsIoAsync.Sync

open Reasoning Cobs Codec

variable {n : Nat}

/-- One round of the loop: the bytes that were consumed, and the payload if the result was `Ok`. -/
structure Visit where
  chunk : List UInt8
  payload : Option (List UInt8)

/-- Calls `decode_to_slice` on what is left of the source until `EmptyFrame`: behind the consumed
bytes after `Ok` and after `InvalidFrame`.  Any other error, and the end of the fuel, is `none`. -/
def decodeAll : Nat → List UInt8 → Bytes n → Option (List Visit)
  | 0, _, _ => none
  | fuel + 1, source, dest =>
    match decodeToSlice source dest with
    | (.ok decoded, dest) =>
      (decodeAll fuel (source.drop decoded.consumed) dest).map
        (⟨source.take decoded.consumed, some (dest.toList.take decoded.len)⟩ :: ·)
    | (.error (.invalidFrame progress), dest) =>
      (decodeAll fuel (source.drop progress.consumed) dest).map
        (⟨source.take progress.consumed, none⟩ :: ·)
    | (.error .emptyFrame, _) => some []
    | _ => none

/-- What a delimited segment decodes to on its own. -/
def bodyPayload (body : List UInt8) : Option (List UInt8) :=
  match decodeToSlice (body ++ [0]) (.zeros body.length) with
  | (.ok decoded, out) => some (out.toList.take decoded.len)
  | (.error _, _) => none

/-- A destination of `n` bytes has room for what a segment stands for. -/
def HasRoom (n : Nat) (seg : List UInt8) : Prop := ∀ out, StandsFor seg out → out.length ≤ n

theorem HasRoom.of_length_le {seg : List UInt8} (h : seg.length ≤ n) : HasRoom n seg :=
  fun _ hout => Nat.le_trans hout.length_le h

/-- What the decoder makes of a segment that is followed by a delimiter, with any padding in front
of it and room for it. -/
theorem decodeToSlice_segment (z : Nat) {seg : List UInt8} (hne : seg ≠ []) (hnotMem : 0 ∉ seg)
    (rest : List UInt8) (dest : Bytes n) (hroom : HasRoom n seg) :
    ∃ out dest', StandsFor seg out ∧ (WellFormed seg ∧
        decodeToSlice (List.replicate z 0 ++ (seg ++ 0 :: rest)) dest =
          (.ok ⟨out.length, z + seg.length + 1⟩, dest') ∧ dest'.toList.take out.length = out ∨
      ¬ WellFormed seg ∧ decodeToSlice (List.replicate z 0 ++ (seg ++ 0 :: rest)) dest =
          (.error (.invalidFrame ⟨z + seg.length + 1, out.length, none⟩), dest')) := by
  obtain ⟨out, hout⟩ := exists_standsFor hnotMem
  have hlayout : Layout (List.replicate z 0 ++ (seg ++ 0 :: rest)) z seg (0 :: rest) :=
    ⟨rfl, hnotMem, .inr ⟨rest, rfl⟩, fun h => absurd h hne⟩
  have hverdict := decodeSlice_verdict hlayout hout dest
  have hlen : out.length ≤ n := hroom out hout
  refine ⟨out, (decodeSlice (List.replicate z 0 ++ (seg ++ 0 :: rest)) dest).2, hout, ?_⟩
  by_cases hwell : WellFormed seg
  · refine .inl ⟨hwell, Prod.ext (hverdict.delimited hlen (by simp) hwell) rfl, ?_⟩
    rw [hverdict.written hlen, List.take_left]
  · exact .inr ⟨hwell, Prod.ext (hverdict.invalid hlen (by simp) hwell) rfl⟩

/-- A segment decodes to the payload of its blocks, in every destination that has room for it. -/
theorem bodyPayload_of_hasRoom {seg : List UInt8} (hne : seg ≠ []) (hnotMem : 0 ∉ seg) (z : Nat)
    (rest : List UInt8) (dest : Bytes n) (hroom : HasRoom n seg) :
    ∃ dest', (∃ out, bodyPayload seg = some out ∧
        decodeToSlice (List.replicate z 0 ++ (seg ++ 0 :: rest)) dest =
          (.ok ⟨out.length, z + seg.length + 1⟩, dest') ∧ dest'.toList.take out.length = out) ∨
      bodyPayload seg = none ∧ ∃ written,
        decodeToSlice (List.replicate z 0 ++ (seg ++ 0 :: rest)) dest =
          (.error (.invalidFrame ⟨z + seg.length + 1, written, none⟩), dest') := by
  obtain ⟨out, dest', hout, hcase⟩ := decodeToSlice_segment z hne hnotMem rest dest hroom
  obtain ⟨out', dest'', hout', hcase'⟩ :=
    decodeToSlice_segment 0 hne hnotMem [] (.zeros seg.length) (.of_length_le (Nat.le_refl _))
  obtain rfl := hout.unique hout'
  refine ⟨dest', ?_⟩
  rcases hcase with ⟨hwell, hrun, htake⟩ | ⟨hbroken, hrun⟩
  · rcases hcase' with ⟨-, hrun', htake'⟩ | ⟨hbroken, -⟩
    · refine .inl ⟨out, ?_, hrun, htake⟩
      simp only [List.replicate_zero, List.nil_append] at hrun'
      simp only [bodyPayload, hrun', htake']
    · exact absurd hwell hbroken
  · rcases hcase' with ⟨hwell, -⟩ | ⟨-, hrun'⟩
    · exact absurd hwell hbroken
    · refine .inr ⟨?_, out.length, hrun⟩
      simp only [List.replicate_zero, List.nil_append] at hrun'
      simp only [bodyPayload, hrun']

theorem bodyPayload_eq {seg : List UInt8} (hne : seg ≠ []) (hnotMem : 0 ∉ seg) (z : Nat)
    (rest : List UInt8) (dest : Bytes n) (hroom : seg.length ≤ n) :
    ∃ dest', (∃ out, bodyPayload seg = some out ∧
        decodeToSlice (List.replicate z 0 ++ (seg ++ 0 :: rest)) dest =
          (.ok ⟨out.length, z + seg.length + 1⟩, dest') ∧ dest'.toList.take out.length = out) ∨
      bodyPayload seg = none ∧ ∃ written,
        decodeToSlice (List.replicate z 0 ++ (seg ++ 0 :: rest)) dest =
          (.error (.invalidFrame ⟨z + seg.length + 1, written, none⟩), dest') :=
  bodyPayload_of_hasRoom hne hnotMem z rest dest (.of_length_le hroom)

/-- A stream that ends with a delimiter is padding, or has a first body. -/
theorem exists_body {stream : List UInt8} (h : stream = [] ∨ stream.getLast? = some 0) :
    (∃ k, stream = List.replicate k 0) ∨ ∃ z seg rest, seg ≠ [] ∧ 0 ∉ seg ∧
      stream = List.replicate z 0 ++ (seg ++ 0 :: rest) ∧
      (rest = [] ∨ rest.getLast? = some 0) := by
  obtain ⟨z, seg, tail, hlayout⟩ := exists_layout stream
  have hstream := hlayout.source_eq
  by_cases hseg : seg = []
  · left
    refine ⟨z, ?_⟩
    rw [hstream, hseg, hlayout.padding hseg, List.append_nil, List.append_nil]
  · right
    rcases h with rfl | hlast
    · have hlen := congrArg List.length hstream
      simp only [List.length_nil, List.length_append] at hlen
      exact absurd (List.length_eq_zero_iff.mp (by omega)) hseg
    rcases hlayout.delimiter with rfl | ⟨rest, rfl⟩
    · -- the segment would end with the delimiter
      rw [List.append_nil] at hstream
      rw [hstream, List.getLast?_append_of_ne_nil _ hseg] at hlast
      exact absurd (List.mem_of_getLast? hlast) hlayout.notMem
    · refine ⟨z, seg, rest, hseg, hlayout.notMem, hstream, ?_⟩
      by_cases hrest : rest = []
      · exact .inl hrest
      · right
        rw [hstream, ← List.append_assoc, List.getLast?_append_of_ne_nil _ (by simp)] at hlast
        rwa [show (0 :: rest) = [0] ++ rest from rfl, List.getLast?_append_of_ne_nil _ hrest] at hlast

/-- What the loop does on a stream: it visits the bodies in order, each with the padding in front
of it, and consumes everything but padding. -/
structure Visits (stream : List UInt8) (visits : List Visit) : Prop where
  chunks : List.Forall₂ (fun body visit => ∃ z, visit.chunk = List.replicate z 0 ++ (body ++ [0]))
    (Segments.bodies 0 stream) visits
  consumed : ∃ k, stream = visits.flatMap Visit.chunk ++ List.replicate k 0
  payloads : visits.map Visit.payload = (Segments.bodies 0 stream).map bodyPayload

/-- One round, and then the rest of the stream. -/
theorem Visits.cons {z : Nat} {seg rest : List UInt8} {visits : List Visit} (hne : seg ≠ [])
    (hnotMem : 0 ∉ seg) (h : Visits rest visits) :
    Visits (List.replicate z 0 ++ (seg ++ 0 :: rest))
      (⟨List.replicate z 0 ++ (seg ++ [0]), bodyPayload seg⟩ :: visits) := by
  have hbodies : Segments.bodies 0 (List.replicate z 0 ++ (seg ++ 0 :: rest)) =
      seg :: Segments.bodies 0 rest := by
    rw [Segments.bodies_padding, Segments.bodies_segment hne hnotMem]
  obtain ⟨k, hk⟩ := h.consumed
  refine ⟨?_, ⟨k, ?_⟩, ?_⟩
  · rw [hbodies]
    exact .cons ⟨z, rfl⟩ h.chunks
  · conv => lhs; rw [hk]
    simp
  · rw [hbodies, List.map_cons, List.map_cons, h.payloads]

/-- The loop ends within one round for each byte, without any other error. -/
theorem decodeAll_of_hasRoom {stream : List UInt8}
    (hend : stream = [] ∨ stream.getLast? = some 0)
    (hroom : ∀ body ∈ Segments.bodies 0 stream, HasRoom n body) : ∃ visits, Visits stream visits ∧
      ∀ fuel (dest : Bytes n), stream.length < fuel → decodeAll fuel stream dest = some visits := by
  induction hlen : stream.length using Nat.strongRecOn generalizing stream with
  | ind m ih =>
      subst hlen
      rcases exists_body hend with ⟨k, rfl⟩ | ⟨z, seg, rest, hne, hnotMem, rfl, hrest⟩
      · have hbodies : Segments.bodies 0 (List.replicate k (0 : UInt8)) = [] := by
          simpa using Segments.bodies_padding (d := (0 : UInt8)) k []
        refine ⟨[], ⟨by rw [hbodies]; exact .nil, ⟨k, rfl⟩, by rw [hbodies]; rfl⟩, ?_⟩
        intro fuel dest hfuel
        obtain ⟨fuel, rfl⟩ := Nat.exists_eq_succ_of_ne_zero (Nat.ne_zero_of_lt hfuel)
        rw [decodeAll, decodeToSlice, decodeSlice_zeros]
      · have hsplit : List.replicate z 0 ++ (seg ++ 0 :: rest) =
            (List.replicate z 0 ++ (seg ++ [0])) ++ rest := by simp
        have hchunk : (List.replicate z (0 : UInt8) ++ (seg ++ [0])).length = z + seg.length + 1 := by
          simp
          omega
        have hlen : (List.replicate z 0 ++ (seg ++ 0 :: rest)).length =
            z + seg.length + 1 + rest.length := by rw [hsplit, List.length_append, hchunk]
        have hbodies : Segments.bodies 0 (List.replicate z 0 ++ (seg ++ 0 :: rest)) =
            seg :: Segments.bodies 0 rest := by
          rw [Segments.bodies_padding, Segments.bodies_segment hne hnotMem]
        rw [hbodies] at hroom
        obtain ⟨visits, hvisits, hrun⟩ := ih rest.length (by omega) hrest
          (fun body hbody => hroom body (List.mem_cons_of_mem _ hbody)) rfl
        refine ⟨_, hvisits.cons hne hnotMem, fun fuel dest hfuel => ?_⟩
        obtain ⟨fuel, rfl⟩ := Nat.exists_eq_succ_of_ne_zero (Nat.ne_zero_of_lt hfuel)
        obtain ⟨dest', hcase⟩ :=
          bodyPayload_of_hasRoom hne hnotMem z rest dest (hroom seg List.mem_cons_self)
        have htake : (List.replicate z 0 ++ (seg ++ 0 :: rest)).take (z + seg.length + 1) =
            List.replicate z 0 ++ (seg ++ [0]) := by
          rw [hsplit]
          exact List.take_left' hchunk
        have hdrop : (List.replicate z 0 ++ (seg ++ 0 :: rest)).drop (z + seg.length + 1) = rest := by
          rw [hsplit]
          exact List.drop_left' hchunk
        rcases hcase with ⟨out, hpayload, hdecode, hout⟩ | ⟨hpayload, written, hdecode⟩
        · rw [decodeAll]
          simp only [hdecode, htake, hdrop, hrun fuel dest' (by omega), hout, hpayload,
            Option.map_some]
        · rw [decodeAll]
          simp only [hdecode, htake, hdrop, hrun fuel dest' (by omega), hpayload, Option.map_some]

theorem decodeAll_visits {stream : List UInt8} (hend : stream = [] ∨ stream.getLast? = some 0)
    (hroom : stream.length ≤ n) : ∃ visits, Visits stream visits ∧
      ∀ fuel (dest : Bytes n), stream.length < fuel → decodeAll fuel stream dest = some visits :=
  decodeAll_of_hasRoom hend fun _ hbody =>
    .of_length_le (Nat.le_trans (Segments.length_le_of_mem_bodies hbody) hroom)

end CobsIoAsync.Sync
