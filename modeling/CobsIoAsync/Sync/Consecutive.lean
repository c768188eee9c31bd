import CobsIoAsync.Sync.Encode
import CobsIoAsync.Sync.RoundTrip
import CobsIoAsync.Sync.Stream

/-!
# Sync.Consecutive — frames one behind the other

Payloads that are encoded one behind the other into one buffer, as the example of `sync.rs` does,
take exactly the sum of their lengths, and a loop over `decode_to_slice` gives them back in order,
also behind what is left of a damaged stream.
-/

namespace CobsIoAsync.Sync

open Reasoning Cobs

variable {n : Nat}

/-- `encode_from_slice_including_sentinels(payload, &mut dest[offset..])`: the end of the frame and
the destination. -/
def encodeBehind (r : Nat × Bytes n) (payload : List UInt8) : Fallible n (Nat × Bytes n) :=
  ExceptT.mk do
    match ← (encodeFromSliceIncludingSentinels payload (r.2.dropFrom r.1)).run with
    | .error (error, tail) => pure (.error (error, r.2.setFrom r.1 tail))
    | .ok (len, tail) => pure (.ok (r.1 + len, r.2.setFrom r.1 tail))

/-- Encodes each payload behind the one before. -/
def encodeAll (payloads : List (List UInt8)) (dest : Bytes n) : Fallible n (Nat × Bytes n) :=
  payloads.foldlM encodeBehind (0, dest)

/-- The frames of the payloads. -/
def delimitedAll (payloads : List (List UInt8)) : List UInt8 := payloads.flatMap delimited

theorem delimitedAll_cons (p : List UInt8) (ps : List (List UInt8)) :
    delimitedAll (p :: ps) = delimited p ++ delimitedAll ps := List.flatMap_cons

/-- How much room the payloads need. -/
def roomFor : List (List UInt8) → Nat
  | [] => 0
  | payload :: payloads => (encode payload).length + 2 + roomFor payloads

theorem length_delimitedAll (payloads : List (List UInt8)) :
    (delimitedAll payloads).length = roomFor payloads := by
  induction payloads with
  | nil => rfl
  | cons p ps ih => rw [delimitedAll_cons, List.length_append, length_delimited, ih, roomFor]

/-! ## Encoding -/

/-- One more frame behind the bytes that are written. -/
theorem encodeBehind_outcome {orig dest : Bytes n} {closed : List UInt8}
    (h : orig.Overwrites closed dest) (payload : List UInt8) :
    Outcome (encodeBehind (closed.length, dest) payload) orig (closed ++ delimited payload) := by
  have hout := encodeFromSliceIncludingSentinels_outcome payload (dest.dropFrom closed.length)
  have hle := h.length_le
  constructor
  · intro hfits
    rw [List.length_append] at hfits
    obtain ⟨_, hrun, ⟨len, tail⟩, rfl, rfl, htail⟩ := hout.fits (by omega)
    refine ⟨.ok (closed.length + (delimited payload).length, dest.setFrom closed.length tail), ?_,
      _, rfl, ?_, h.setFrom rfl htail⟩
    · simp only [encodeBehind, ExceptT.run_mk, hrun]
      rfl
    · rw [List.length_append]
  · intro hexceeds
    rw [List.length_append] at hexceeds
    obtain ⟨_, hrun, tail, rfl⟩ := hout.exceeds (by omega)
    refine ⟨.error (.outOfBounds, dest.setFrom closed.length tail), ?_, _, rfl⟩
    simp only [encodeBehind, ExceptT.run_mk, hrun]
    rfl

/-- All frames behind the bytes that are written, by induction on the payloads. -/
theorem encodeAll_behind {orig : Bytes n} (payloads : List (List UInt8)) {dest : Bytes n}
    {closed : List UInt8} (h : orig.Overwrites closed dest) :
    Outcome (payloads.foldlM encodeBehind (closed.length, dest)) orig
      (closed ++ delimitedAll payloads) := by
  induction payloads generalizing dest closed with
  | nil =>
      have hle := h.length_le
      rw [delimitedAll, List.flatMap_nil, List.append_nil]
      exact ⟨fun _ => .ret ⟨rfl, h⟩, fun hlt => by omega⟩
  | cons p ps ih =>
      have hpos := length_delimited p
      have hstep := encodeBehind_outcome h p
      rw [List.foldlM_cons, delimitedAll_cons, ← List.append_assoc]
      have hlen : 0 < (closed ++ delimited p).length := by
        rw [List.length_append]
        omega
      have hall : (closed ++ delimited p).length ≤
          (closed ++ delimited p ++ delimitedAll ps).length := (List.prefix_append _ _).length_le
      refine Outcome.step ((closed ++ delimited p).length - 1) (by omega)
        (fun hroom => hstep.fits (by omega)) (fun hfull => hstep.exceeds (by omega)) ?_
      intro r hr
      obtain ⟨len, dest'⟩ := r
      obtain ⟨rfl, hdest'⟩ := hr
      exact ih hdest'

theorem encodeAll_outcome (payloads : List (List UInt8)) (dest : Bytes n) :
    Outcome (encodeAll payloads dest) dest (delimitedAll payloads) :=
  encodeAll_behind payloads (.refl dest)

/-! ## Decoding -/

theorem standsFor_encode (p : List UInt8) : StandsFor (encode p) p := by
  have h := standsFor_wire (split p)
  rwa [payload_split] at h

theorem encode_ne_nil (p : List UInt8) : encode p ≠ [] :=
  List.ne_nil_of_length_pos (Nat.zero_lt_of_lt (length_lt_encode p))

/-- What was encoded decodes to its payload. -/
theorem bodyPayload_encode (p : List UInt8) : bodyPayload (encode p) = some p := by
  obtain ⟨dest', hdecode, hdest'⟩ := decodesTo_delimited 0 p [] _ (.zeros (encode p).length)
    (Nat.le_of_lt (length_lt_encode p))
  simp only [List.replicate_zero, List.nil_append] at hdecode
  simp only [bodyPayload, hdecode, hdest', List.take_left]

/-- The bodies of the frames are the encodings. -/
theorem bodies_delimitedAll (payloads : List (List UInt8)) :
    Segments.bodies 0 (delimitedAll payloads) = payloads.map encode := by
  induction payloads with
  | nil => rfl
  | cons p ps ih =>
      have hframe : delimited p ++ delimitedAll ps =
          List.replicate 1 0 ++ (encode p ++ 0 :: delimitedAll ps) := by simp [delimited]
      rw [delimitedAll_cons, hframe, Segments.bodies_padding,
        Segments.bodies_segment (encode_ne_nil p) (zero_notMem_encode p), ih, List.map_cons]

/-- The frames end with a delimiter. -/
theorem delimitedAll_end (payloads : List (List UInt8)) :
    delimitedAll payloads = [] ∨ (delimitedAll payloads).getLast? = some 0 := by
  induction payloads with
  | nil => exact .inl rfl
  | cons p ps ih =>
      right
      rw [delimitedAll_cons]
      rcases ih with hnil | hlast
      · rw [hnil, List.append_nil]
        exact List.getLast?_concat (l := 0 :: encode p)
      · rw [List.getLast?_append, hlast]
        rfl

/-- Payloads that are encoded one behind the other take exactly the room of their frames, and fail
with `OutOfBounds` in any smaller buffer.  Behind any delimited junk the loop over `decode_to_slice`
first makes of the junk what it makes of it alone, and then gives back the payloads in order, in any
destination that is as long as the junk and as the longest of them. -/
theorem encodeAll_decodes (payloads : List (List UInt8)) (dest : Bytes n) :
    (roomFor payloads ≤ n → ∃ dest',
      (encodeAll payloads dest).run = some (.ok (roomFor payloads, dest')) ∧
      dest'.toList.drop (roomFor payloads) = dest.toList.drop (roomFor payloads) ∧
      ∀ (junk : List UInt8) {m : Nat} (out : Bytes m),
        (junk = [] ∨ junk.getLast? = some 0) → junk.length ≤ m →
          (∀ payload ∈ payloads, payload.length ≤ m) → ∃ before visits, Visits junk before ∧
            (∀ fuel, junk.length + roomFor payloads < fuel →
              decodeAll fuel (junk ++ dest'.toList.take (roomFor payloads)) out = some visits) ∧
            visits.map Visit.payload = before.map Visit.payload ++ payloads.map some) ∧
    (n < roomFor payloads → ∃ dest',
      (encodeAll payloads dest).run = some (.error (.outOfBounds, dest'))) := by
  have hout := encodeAll_outcome payloads dest
  rw [← length_delimitedAll]
  refine ⟨fun hfits => ?_, fun hexceeds => ?_⟩
  · obtain ⟨_, hrun, ⟨len, dest'⟩, rfl, rfl, hdest'⟩ := hout.fits hfits
    refine ⟨dest', hrun, ?_, fun junk m out hjunk hroom hpayloads => ?_⟩
    · rw [hdest'.toList_eq, List.drop_left]
    rw [hdest'.take]
    obtain ⟨before, hbefore, -⟩ := decodeAll_visits hjunk hroom
    have hbodies : Segments.bodies 0 (junk ++ delimitedAll payloads) =
        Segments.bodies 0 junk ++ payloads.map encode := by
      rw [Segments.bodies_append_of_tail_nil (Segments.tail_of_last hjunk), bodies_delimitedAll]
    have hend : junk ++ delimitedAll payloads = [] ∨
        (junk ++ delimitedAll payloads).getLast? = some 0 := by
      rcases delimitedAll_end payloads with hnil | hlast
      · rwa [hnil, List.append_nil]
      · right
        rw [List.getLast?_append, hlast]
        rfl
    -- the junk is short, and an encoding stands for its payload alone
    have hhasRoom : ∀ body ∈ Segments.bodies 0 (junk ++ delimitedAll payloads), HasRoom m body := by
      intro body hbody
      rw [hbodies] at hbody
      rcases List.mem_append.mp hbody with hof | hof
      · exact .of_length_le (Nat.le_trans (Segments.length_le_of_mem_bodies hof) hroom)
      · obtain ⟨p, hp, rfl⟩ := List.mem_map.mp hof
        intro out hout
        rw [hout.unique (standsFor_encode p)]
        exact hpayloads p hp
    obtain ⟨visits, hvisits, hloop⟩ := decodeAll_of_hasRoom hend hhasRoom
    refine ⟨before, visits, hbefore, fun fuel hfuel => hloop fuel out ?_, ?_⟩
    · rwa [List.length_append]
    · rw [hvisits.payloads, hbefore.payloads, hbodies, List.map_append, List.map_map]
      congr 1
      exact List.map_congr_left fun p _ => bodyPayload_encode p
  · obtain ⟨_, hrun, dest', rfl⟩ := hout.exceeds hexceeds
    exact ⟨dest', hrun⟩

/-- The two frames of the example of `sync.rs`, behind a frame that breaks off. -/
theorem encodeAll_decodes_example : roomFor [[7, 0, 8], [9]] = 10 ∧
    ∃ dest', (encodeAll [[7, 0, 8], [9]] (.zeros 10)).run = some (.ok (10, dest')) ∧
      ∃ visits, decodeAll 14 ([4, 7, 0] ++ dest'.toList.take 10) (.zeros 3) = some visits ∧
        visits.map Visit.payload = [none, some [7, 0, 8], some [9]] := by
  have hroom : roomFor [[7, 0, 8], [9]] = 10 := by decide
  obtain ⟨dest', hrun, -, hdecodes⟩ :=
    (encodeAll_decodes [[7, 0, 8], [9]] (.zeros 10)).1 (Nat.le_of_eq hroom)
  rw [hroom] at hrun hdecodes
  obtain ⟨before, visits, hbefore, hloop, hpayloads⟩ :=
    hdecodes [4, 7, 0] (.zeros 3) (.inr rfl) (by decide) (by decide)
  refine ⟨hroom, dest', hrun, visits, hloop 14 (by decide), ?_⟩
  rw [hpayloads, hbefore.payloads]
  decide

end CobsIoAsync.Sync
