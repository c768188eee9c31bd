import CobsIoAsync.EncodingLength
import CobsIoAsync.Sync.Model

/-!
# Sync.Encode — the encoder computes the reference encoding

The encoder is followed through its loop by the blocks it has closed and the block it has open.
It reports `OutOfBounds` exactly when the reference encoding does not fit the destination.
-/

namespace CobsIoAsync.Sync

open Reasoning Cobs

variable {n : Nat} {α β : Type}

/-! ## Outcomes of fallible code -/

/-- `x` neither panics nor fails, and its value satisfies `post`. -/
def Succeeds (x : Fallible n α) (post : α → Prop) : Prop :=
  Returns x.run (fun r => ∃ a, r = .ok a ∧ post a)

/-- `x` does not panic and reports `OutOfBounds`. -/
def RunsOut (x : Fallible n α) : Prop :=
  Returns x.run (fun r => ∃ dest, r = .error (.outOfBounds, dest))

theorem Succeeds.ret {a : α} {post : α → Prop} (h : post a) :
    Succeeds (pure a : Fallible n α) post :=
  ⟨.ok a, rfl, a, rfl, h⟩

theorem Succeeds.bind {x : Fallible n α} {f : α → Fallible n β} {P : α → Prop} {Q : β → Prop}
    (hx : Succeeds x P) (hf : ∀ a, P a → Succeeds (f a) Q) : Succeeds (x >>= f) Q := by
  obtain ⟨r, hr, a, rfl, ha⟩ := hx
  obtain ⟨t, ht, hq⟩ := hf a ha
  refine ⟨t, ?_, hq⟩
  rw [ExceptT.run_bind, hr]
  exact ht

theorem Succeeds.bind_runsOut {x : Fallible n α} {f : α → Fallible n β} {P : α → Prop}
    (hx : Succeeds x P) (hf : ∀ a, P a → RunsOut (f a)) : RunsOut (x >>= f) := by
  obtain ⟨r, hr, a, rfl, ha⟩ := hx
  obtain ⟨t, ht, hq⟩ := hf a ha
  refine ⟨t, ?_, hq⟩
  rw [ExceptT.run_bind, hr]
  exact ht

theorem RunsOut.bind {x : Fallible n α} {f : α → Fallible n β} (hx : RunsOut x) :
    RunsOut (x >>= f) := by
  obtain ⟨r, hr, dest, rfl⟩ := hx
  refine ⟨.error (.outOfBounds, dest), ?_, dest, rfl⟩
  rw [ExceptT.run_bind, hr]
  rfl

/-! ## The output slice -/

/-- `written` has replaced the head of the destination `orig`. -/
def SliceOutput.Holds (orig : Bytes n) (written : List UInt8) (output : SliceOutput n) : Prop :=
  output.len = written.length ∧ orig.Overwrites written output.dest

namespace SliceOutput.Holds

variable {orig : Bytes n} {written : List UInt8} {output : SliceOutput n}

theorem append (h : output.Holds orig written) (hroom : written.length < n) (byte : UInt8) :
    Succeeds (output.append byte) (SliceOutput.Holds orig (written ++ [byte])) := by
  obtain ⟨dest, hset, hdest⟩ := h.2.push hroom byte
  unfold SliceOutput.append
  rw [h.1, hset]
  exact .ret ⟨by simp, hdest⟩

theorem append_runsOut (h : output.Holds orig written) (hfull : n ≤ written.length)
    (byte : UInt8) : RunsOut (output.append byte) := by
  unfold SliceOutput.append
  rw [h.1, Bytes.set?_eq_none hfull]
  exact ⟨_, rfl, _, rfl⟩

theorem set (h : output.Holds orig written) {idx : Nat} (hidx : idx < written.length)
    (byte : UInt8) : Succeeds (output.set idx byte)
      (SliceOutput.Holds orig (written.set idx byte)) := by
  obtain ⟨dest, hset, hdest⟩ := h.2.set hidx byte
  unfold SliceOutput.set
  rw [hset]
  exact .ret ⟨by simpa using h.1, hdest⟩

end SliceOutput.Holds

/-! ## The loop -/

/-- What the encoder does after its loop. -/
def finishEncoding (encoder : Encoder n) : Fallible n (Nat × Bytes n) := do
  let output ←
    if !encoder.needsCodePlaceholder then
      encoder.output.set encoder.codeIdx (UInt8.ofNat encoder.code)
    else pure encoder.output
  pure (output.len, output.dest)

/-- The encoder from the state `encoder` on. -/
def encodeFrom (encoder : Encoder n) (source : List UInt8) : Fallible n (Nat × Bytes n) :=
  source.foldlM encodeByte encoder >>= finishEncoding

theorem encodeFrom_cons (encoder : Encoder n) (x : UInt8) (xs : List UInt8) :
    encodeFrom encoder (x :: xs) = encodeByte encoder x >>= (encodeFrom · xs) := by
  simp only [encodeFrom, List.foldlM_cons, bind_assoc]

/-- The blocks `closed` are written and `o` is open behind its placeholder. -/
structure Opened (orig : Bytes n) (closed : List UInt8) (o : OpenBlock) (encoder : Encoder n) :
    Prop where
  holds : encoder.output.Holds orig (closed ++ 0 :: o.data)
  codeIdx : encoder.codeIdx = closed.length
  code : encoder.code = o.data.length + 1
  placeholder : encoder.needsCodePlaceholder = false

/-- The last of the blocks `closed` is full and no block is open. -/
structure Filled (orig : Bytes n) (closed : List UInt8) (encoder : Encoder n) : Prop where
  holds : encoder.output.Holds orig closed
  codeIdx : encoder.codeIdx = closed.length
  code : encoder.code = 1
  placeholder : encoder.needsCodePlaceholder = true

/-- The encoder leaves `total` in front of the destination, or runs out if it is too long. -/
structure Outcome (x : Fallible n (Nat × Bytes n)) (orig : Bytes n) (total : List UInt8) : Prop where
  fits : total.length ≤ n → Succeeds x (fun r => r.1 = total.length ∧ orig.Overwrites total r.2)
  exceeds : n < total.length → RunsOut x

/-- Closing the open block overwrites its placeholder with its code. -/
theorem set_placeholder (closed : List UInt8) (b : Block) :
    (closed ++ 0 :: b.data).set closed.length (UInt8.ofNat (b.data.length + 1)) =
      closed ++ b.bytes := by
  rw [List.set_append_right _ _ (Nat.le_refl _), Nat.sub_self, List.set_cons_zero]
  rfl

theorem Opened.length_le {orig : Bytes n} {closed : List UInt8} {o : OpenBlock}
    {encoder : Encoder n} (h : Opened orig closed o encoder) :
    closed.length + o.data.length + 1 ≤ n := by
  have hle := h.holds.2.length_le
  simp only [List.length_append, List.length_cons] at hle
  omega

/-- The open block is closed with its code. -/
theorem Opened.close {orig : Bytes n} {closed : List UInt8} {o : OpenBlock} {encoder : Encoder n}
    (h : Opened orig closed o encoder) :
    Succeeds (encoder.output.set encoder.codeIdx (UInt8.ofNat encoder.code))
      (SliceOutput.Holds orig (closed ++ o.close.bytes)) := by
  have hset := h.holds.set (show closed.length < _ by simp) (UInt8.ofNat (o.data.length + 1))
  rw [← OpenBlock.data_close, set_placeholder] at hset
  rw [h.codeIdx, h.code]
  exact hset

theorem finishEncoding_opened {orig : Bytes n} {closed : List UInt8} {o : OpenBlock}
    {encoder : Encoder n} (h : Opened orig closed o encoder) :
    Succeeds (finishEncoding encoder) (fun r => r.1 = (closed ++ o.close.bytes).length ∧
      orig.Overwrites (closed ++ o.close.bytes) r.2) := by
  unfold finishEncoding
  rw [h.placeholder]
  exact h.close.bind fun output ho => .ret ho

section step

variable {orig : Bytes n} {closed : List UInt8} {o : OpenBlock} {encoder : Encoder n}

theorem encodeByte_zero (h : Opened orig closed o encoder)
    (hroom : closed.length + o.data.length + 1 < n) :
    Succeeds (encodeByte encoder 0) (Opened orig (closed ++ o.close.bytes) .empty) := by
  unfold encodeByte
  rw [h.placeholder]
  simp only [Bool.false_eq_true, if_false, if_true, pure_bind]
  refine h.close.bind fun output ho => ?_
  have hlen : (closed ++ o.close.bytes).length < n := by simp; omega
  exact (ho.append hlen 0).bind fun output' ho' => .ret ⟨ho', ho.1, rfl, rfl⟩

theorem encodeByte_zero_runsOut (h : Opened orig closed o encoder)
    (hfull : n ≤ closed.length + o.data.length + 1) : RunsOut (encodeByte encoder 0) := by
  unfold encodeByte
  rw [h.placeholder]
  simp only [Bool.false_eq_true, if_false, if_true, pure_bind]
  refine h.close.bind_runsOut fun output ho => ?_
  exact (ho.append_runsOut (by simp; omega) 0).bind

/-- The counter never overflows: an open block has fewer than 254 bytes. -/
theorem code_add_one (h : Opened orig closed o encoder) :
    checkedAdd u8Max encoder.code 1 = some (o.data.length + 1 + 1) := by
  have hl := o.length_lt
  rw [h.code, checkedAdd_eq (by simp only [u8Max]; omega)]

/-- What the encoder does with a byte that belongs to the open block. -/
theorem encodeByte_nonzero (h : Opened orig closed o encoder) {x : UInt8} (hx : x ≠ 0) :
    encodeByte encoder x =
      if o.data.length + 1 + 1 = u8Max then
        encoder.output.set closed.length (UInt8.ofNat (o.data.length + 1 + 1)) >>= fun output =>
          output.append x >>= fun output => pure ⟨output, output.len, 1, true⟩
      else encoder.output.append x >>= fun output =>
        pure ⟨output, closed.length, o.data.length + 1 + 1, false⟩ := by
  unfold encodeByte
  rw [h.placeholder, h.codeIdx, code_add_one h]
  simp only [Bool.false_eq_true, if_false, pure_bind, if_neg hx]
  rfl

theorem encodeByte_extend (h : Opened orig closed o encoder) {x : UInt8} (hx : x ≠ 0)
    (hdata : o.data.length + 1 < 254) (hroom : closed.length + o.data.length + 1 < n) :
    Succeeds (encodeByte encoder x) (Opened orig closed (o.extend x hx hdata)) := by
  rw [encodeByte_nonzero h hx, if_neg (by simp only [u8Max]; omega)]
  refine (h.holds.append (by simp; omega) x).bind fun output ho => .ret ⟨?_, rfl, ?_, rfl⟩
  · simpa using ho
  · simp

theorem encodeByte_push (h : Opened orig closed o encoder) {x : UInt8} (hx : x ≠ 0)
    (hdata : ¬ o.data.length + 1 < 254) (hroom : closed.length + o.data.length + 1 < n) :
    Succeeds (encodeByte encoder x) (Filled orig (closed ++ (o.push x hx).bytes)) := by
  have hl := o.length_lt
  have hcode : o.data.length + 1 + 1 = u8Max := by simp only [u8Max]; omega
  rw [encodeByte_nonzero h hx, if_pos hcode]
  refine (h.holds.set (show closed.length < _ by simp) _).bind fun output ho => ?_
  refine (ho.append (by simp; omega) x).bind fun output' ho' => .ret ?_
  have hwritten : (closed ++ 0 :: o.data).set closed.length (UInt8.ofNat (o.data.length + 1 + 1)) ++
      [x] = closed ++ (o.push x hx).bytes := by
    rw [List.set_append_right _ _ (Nat.le_refl _), Nat.sub_self, List.set_cons_zero]
    simp [Block.bytes, Block.code]
  rw [hwritten] at ho'
  exact ⟨ho', ho'.1, rfl, rfl⟩

theorem encodeByte_nonzero_runsOut (h : Opened orig closed o encoder) {x : UInt8} (hx : x ≠ 0)
    (hfull : n ≤ closed.length + o.data.length + 1) : RunsOut (encodeByte encoder x) := by
  rw [encodeByte_nonzero h hx]
  split
  · refine (h.holds.set (show closed.length < _ by simp) _).bind_runsOut fun output ho => ?_
    exact (ho.append_runsOut (by simp; omega) x).bind
  · exact (h.holds.append_runsOut (by simp; omega) x).bind

/-- Behind a full block the encoder first writes the placeholder of the next one. -/
theorem encodeByte_filled (h : Filled orig closed encoder) (x : UInt8) :
    encodeByte encoder x = encoder.output.append 0 >>= fun output =>
      encodeByte ⟨output, encoder.codeIdx, encoder.code, false⟩ x := by
  unfold encodeByte
  simp only [h.placeholder, if_true, Bool.false_eq_true, if_false, pure_bind]

end step

/-! ## The whole run -/

/-- If the encoder goes on as it does from an open empty block, it goes on from a full one. -/
theorem encodeFrom_filled {orig : Bytes n} {closed : List UInt8} {encoder : Encoder n}
    (h : Filled orig closed encoder) (xs : List UInt8)
    (hopen : ∀ encoder', Opened orig closed .empty encoder' →
      Outcome (encodeFrom encoder' xs) orig (closed ++ wire (splitFrom .empty xs))) :
    Outcome (encodeFrom encoder xs) orig (closed ++ wire (splitAfterFull xs)) := by
  cases xs with
  | nil =>
      have hle := h.holds.2.length_le
      -- The full block ends the frame: no code byte follows it.
      simp only [splitAfterFull, if_true, wire_nil, List.append_nil]
      refine ⟨fun _ => ?_, fun hlt => by omega⟩
      unfold encodeFrom finishEncoding
      simp only [List.foldlM_nil, pure_bind, h.placeholder, Bool.not_true, Bool.false_eq_true,
        if_false]
      exact .ret h.holds
  | cons x xs =>
      rw [encodeFrom_cons, encodeByte_filled h, bind_assoc]
      simp only [splitAfterFull, reduceCtorEq, if_false]
      have hpos := length_lt_wire_splitFrom .empty (x :: xs)
      by_cases hroom : closed.length < n
      · have happ := h.holds.append hroom 0
        have hgo : ∀ output, SliceOutput.Holds orig (closed ++ [0]) output →
            Outcome (encodeByte ⟨output, encoder.codeIdx, encoder.code, false⟩ x >>=
              (encodeFrom · xs)) orig (closed ++ wire (splitFrom .empty (x :: xs))) :=
          fun output ho => by
            rw [← encodeFrom_cons]
            exact hopen _ ⟨ho, h.codeIdx, h.code, rfl⟩
        exact ⟨fun hle => happ.bind fun output ho => (hgo output ho).fits hle,
          fun hlt => happ.bind_runsOut fun output ho => (hgo output ho).exceeds hlt⟩
      · refine ⟨fun hle => ?_, fun _ => (h.holds.append_runsOut (by omega) 0).bind⟩
        rw [List.length_append] at hle
        omega

/-- One round of the loop, then the rest of the run. -/
theorem Outcome.step {x : Fallible n α} {f : α → Fallible n (Nat × Bytes n)}
    {orig : Bytes n} {total : List UInt8} {P : α → Prop} (need : Nat)
    (hneed : need < total.length) (hroom : need < n → Succeeds x P)
    (hfull : n ≤ need → RunsOut x) (hf : ∀ e, P e → Outcome (f e) orig total) :
    Outcome (x >>= f) orig total := by
  by_cases h : need < n
  · exact ⟨fun hle => (hroom h).bind fun e he => (hf e he).fits hle,
      fun hlt => (hroom h).bind_runsOut fun e he => (hf e he).exceeds hlt⟩
  · exact ⟨fun hle => by omega, fun _ => (hfull (by omega)).bind⟩

/-- From an open block on, the encoder writes the blocks the reference encoder splits off. -/
theorem encodeFrom_opened {orig : Bytes n} (o : OpenBlock) (xs : List UInt8) :
    ∀ (closed : List UInt8) (encoder : Encoder n), Opened orig closed o encoder →
      Outcome (encodeFrom encoder xs) orig (closed ++ wire (splitFrom o xs)) := by
  induction o, xs using splitFrom_induction with
  | nil o =>
      intro closed encoder h
      have hle := h.length_le
      refine ⟨fun _ => ?_, fun hlt => ?_⟩
      · simpa [encodeFrom, splitFrom] using finishEncoding_opened h
      · simp [splitFrom] at hlt
        omega
  | zero o xs ih =>
      intro closed encoder h
      rw [splitFrom_zero, wire_cons, ← List.append_assoc, encodeFrom_cons]
      refine Outcome.step (closed.length + o.data.length + 1) ?_ (encodeByte_zero h)
        (encodeByte_zero_runsOut h) (fun e he => ih _ e he)
      have hpos := length_lt_wire_splitFrom .empty xs
      simp at hpos ⊢
      omega
  | extend o x xs hx hdata ih =>
      intro closed encoder h
      rw [splitFrom_extend o hx hdata, encodeFrom_cons]
      refine Outcome.step (closed.length + o.data.length + 1) ?_
        (encodeByte_extend h hx hdata) (encodeByte_nonzero_runsOut h hx) (fun e he => ih _ e he)
      have hlen := length_lt_wire_splitFrom (o.extend x hx hdata) xs
      simp at hlen ⊢
      omega
  | push o x xs hx hdata ih =>
      intro closed encoder h
      rw [splitFrom_push o hx hdata, wire_cons, ← List.append_assoc, encodeFrom_cons]
      refine Outcome.step (closed.length + o.data.length + 1) ?_
        (encodeByte_push h hx hdata) (encodeByte_nonzero_runsOut h hx)
        (fun e he => encodeFrom_filled he xs (ih _))
      simp
      omega

/-- `encode_from_slice` writes the reference encoding, or reports that it does not fit. -/
theorem encodeFromSlice_outcome (source : List UInt8) (dest : Bytes n) :
    Outcome (encodeFromSlice source dest) dest (encode source) := by
  have hrun : encodeFromSlice source dest = SliceOutput.append ⟨dest, 0⟩ 0 >>= fun output =>
      encodeFrom ⟨output, 0, 1, false⟩ source := rfl
  have hstart : SliceOutput.Holds dest [] ⟨dest, 0⟩ := ⟨rfl, .refl dest⟩
  rw [hrun]
  refine Outcome.step 0 ?_ (fun h => hstart.append h 0)
    (fun h => hstart.append_runsOut h 0) (fun output ho => ?_)
  · exact Nat.zero_lt_of_lt (length_lt_encode source)
  · exact encodeFrom_opened .empty source [] _ ⟨ho, rfl, rfl, rfl⟩

/-- The delimited form of a payload. -/
def delimited (source : List UInt8) : List UInt8 := 0 :: (encode source ++ [0])

theorem length_delimited (source : List UInt8) :
    (delimited source).length = (encode source).length + 2 := by simp [delimited]

/-- `encode_from_slice_including_sentinels` writes the delimited encoding, or reports that it does
not fit. -/
theorem encodeFromSliceIncludingSentinels_outcome (source : List UInt8) {n : Nat}
    (dest : Bytes n) :
    Outcome (encodeFromSliceIncludingSentinels source dest) dest (delimited source) := by
  have hlen := length_delimited source
  cases n with
  | zero => exact ⟨fun hle => by omega, fun _ => ⟨_, rfl, dest, rfl⟩⟩
  | succ n =>
      have hout := encodeFromSlice_outcome source dest.tail
      by_cases hbody : (encode source).length ≤ n
      · obtain ⟨_, hrun, ⟨bodyLen, rest⟩, rfl, rfl, hrest⟩ := hout.fits hbody
        simp only [Bytes.Overwrites] at hrest
        refine ⟨fun hle => ?_, fun hlt => ?_⟩
        · refine ⟨.ok ((encode source).length + 2,
            (⟨rest.toList.set (encode source).length 0, by simp⟩ : Bytes n).cons 0), ?_, _, rfl,
            hlen.symm, ?_⟩
          · simp only [encodeFromSliceIncludingSentinels, ExceptT.run_mk, hrun]
            simp [Bytes.set?_eq (show (encode source).length < n by omega)]
          · have hlt : (encode source).length < dest.tail.toList.length := by simp; omega
            have hdrop : dest.tail.toList.drop (encode source).length =
                dest.tail.toList[(encode source).length] ::
                  dest.tail.toList.drop ((encode source).length + 1) :=
              List.drop_eq_getElem_cons hlt
            have hset : rest.toList.set (encode source).length 0 =
                encode source ++ 0 :: dest.tail.toList.drop ((encode source).length + 1) := by
              rw [hrest, List.set_append_right _ _ (Nat.le_refl _), Nat.sub_self, hdrop,
                List.set_cons_zero]
            simp only [Bytes.Overwrites, Bytes.toList_cons, hset, delimited]
            simp [List.drop_tail]
        · refine ⟨.error (.outOfBounds, rest.cons 0), ?_, _, rfl⟩
          simp only [encodeFromSliceIncludingSentinels, ExceptT.run_mk, hrun]
          simp [Bytes.set?_eq_none (show n ≤ (encode source).length by omega)]
      · obtain ⟨_, hrun, rest, rfl⟩ := hout.exceeds (by omega)
        refine ⟨fun hle => by omega, fun _ => ⟨.error (.outOfBounds, rest.cons 0), ?_, _, rfl⟩⟩
        simp only [encodeFromSliceIncludingSentinels, ExceptT.run_mk, hrun]
        simp

end CobsIoAsync.Sync
