import CobsIoAsync.Codec.Verdict
import CobsIoAsync.Sync.RoundTrip

/-!
# Sync.Canonical — the decoder's language and the encoder's place in it

The decoder accepts the strings that divide into blocks, and each of them is what the encoder
makes of its payload, up to an empty block behind a full one at the end.
-/

namespace CobsIoAsync.Sync

open Reasoning Cobs Codec

/-! ## The language of the decoder -/

/-- Every source has a layout, and its blocks decide between the five results. -/
theorem decodeToSlice_grammar (source : List UInt8) :
    (∃ z seg tail out, Layout source z seg tail ∧ StandsFor seg out) ∧
      ∀ z seg tail out, Layout source z seg tail → StandsFor seg out →
        ∀ {n : Nat} (dest : Bytes n),
          Verdict source z seg tail out dest (decodeToSlice source dest) := by
  constructor
  · obtain ⟨z, seg, tail, hlayout⟩ := exists_layout source
    obtain ⟨out, hout⟩ := exists_standsFor hlayout.notMem
    exact ⟨z, seg, tail, out, hlayout, hout⟩
  · intro z seg tail out hlayout hout n dest
    exact decodeSlice_verdict hlayout hout dest

/-- The second block breaks off at the delimiter. -/
theorem decodeToSlice_grammar_invalid :
    (decodeToSlice [0, 2, 7, 3, 8, 0, 9] (.zeros 5)).1 =
      .error (.invalidFrame ⟨6, [7, 0, 8].length, none⟩) := by
  let b : Block := ⟨[7], by decide, by decide⟩
  let stub : Stub := ⟨3, [8], by decide, by decide⟩
  have hlayout : Layout [0, 2, 7, 3, 8, 0, 9] 1 [2, 7, 3, 8] [0, 9] :=
    ⟨rfl, by decide, .inr ⟨[9], rfl⟩, fun h => by cases h⟩
  have hout : StandsFor [2, 7, 3, 8] [7, 0, 8] := ⟨.block b (.broken stub), rfl, rfl⟩
  have hverdict := (decodeToSlice_grammar _).2 _ _ _ _ hlayout hout (.zeros 5)
  apply hverdict.invalid (by decide) (by decide)
  intro hwell
  have hwf : WellFormed (Division.block b (.broken stub)).bytes ↔ _ := wellFormed_iff (by decide)
  exact absurd (hwf.mp hwell) (by decide)

/-! ## The place of the encoder -/

/-- The decoder accepts the body `b` with payload `p`, with or without a delimiter behind it. -/
def Accepts (b p : List UInt8) : Prop :=
  ∃ (n : Nat) (dest dest' : Bytes n) (consumed : Nat),
    (decodeToSlice b dest = (.ok ⟨p.length, consumed⟩, dest') ∨
      decodeToSlice (b ++ [0]) dest = (.ok ⟨p.length, consumed⟩, dest')) ∧
    dest'.toList.take p.length = p

theorem Accepts.blocks {b p : List UInt8} (hb : 0 ∉ b) (h : Accepts b p) :
    ∃ bs, bs ≠ [] ∧ b = wire bs ∧ p = payload bs := by
  obtain ⟨n, dest, dest', consumed, hrun, htake⟩ := h
  obtain ⟨out, hout⟩ := exists_standsFor hb
  have hverdict : WellFormed b ∧ p.length = out.length ∧ dest'.toList.take p.length = out := by
    by_cases hnil : b = []
    · -- nothing or a delimiter alone is an empty frame
      subst hnil
      exfalso
      rcases hrun with hrun | hrun
      · cases (decodeSlice_zeros 0 dest).symm.trans hrun
      · cases (decodeSlice_zeros 1 dest).symm.trans hrun
    rcases hrun with hrun | hrun
    · have hlayout : Layout b 0 b [] := ⟨by simp, hb, .inl rfl, fun _ => rfl⟩
      have h := decodeSlice_verdict hlayout hout dest
      rw [show decodeSlice b dest = _ from hrun] at h
      exact h.accepted
    · have hlayout : Layout (b ++ [0]) 0 b [0] :=
        ⟨rfl, hb, .inr ⟨[], rfl⟩, fun h => absurd h hnil⟩
      have h := decodeSlice_verdict hlayout hout dest
      rw [show decodeSlice (b ++ [0]) dest = _ from hrun] at h
      exact h.accepted
  obtain ⟨⟨bs, hbs, rfl⟩, -, hp⟩ := hverdict
  refine ⟨bs, hbs, rfl, ?_⟩
  rw [← htake, hp]
  exact hout.unique (standsFor_wire bs)

/-- What is accepted is the encoding, or has one more empty block behind a full one. -/
theorem Accepts.eq_encode {b p : List UInt8} (hb : 0 ∉ b) (h : Accepts b p) :
    b = encode p ∨ b = encode p ++ [1] ∧
      ∃ front last, encode p = wire (front ++ [last]) ∧ last.code = 255 := by
  obtain ⟨bs, hbs, rfl, rfl⟩ := h.blocks hb
  obtain ⟨b, bs, rfl⟩ := List.exists_cons_of_ne_nil hbs
  rcases blocks_canonical b bs with hsplit | ⟨front, last, hfull, hsplit, hblocks⟩
  · exact .inl (congrArg wire hsplit)
  · right
    refine ⟨?_, front, last, congrArg wire hsplit, ?_⟩
    · rw [encode, hsplit, hblocks, show front ++ [last, emptyBlock] = (front ++ [last]) ++ [emptyBlock] by
        simp, wire, wire, List.flatMap_append]
      rfl
    · have hlen : last.data.length = 254 := by simpa [Block.full] using hfull
      apply UInt8.toNat_inj.mp
      rw [last.code_toNat, hlen]
      rfl

theorem accepts_encode (p : List UInt8) : Accepts (encode p) p := by
  obtain ⟨dest', hrun, hdest'⟩ := decodesTo_undelimited 0 p p.length (.zeros _) (Nat.le_refl _)
  refine ⟨_, _, dest', _, .inl hrun, ?_⟩
  rw [hdest', List.take_left]

/-- A zero-free body that is accepted with payload `p` is what the encoder writes for `p`, up to
one code byte behind a full block at the end; so what it writes is the only shortest body for `p`
and no two payloads share one. -/
theorem encode_canonical :
    (∀ b p, 0 ∉ b → Accepts b p → b = encode p ∨ b = encode p ++ [1] ∧
      ∃ front last, encode p = wire (front ++ [last]) ∧ last.code = 255) ∧
    (∀ p {n : Nat} (dest : Bytes n), (encode p).length ≤ n → ∃ dest',
      (encodeFromSlice p dest).run = some (.ok ((encode p).length, dest')) ∧
      dest'.toList.take (encode p).length = encode p) ∧
    (∀ p, 0 ∉ encode p ∧ Accepts (encode p) p ∧
      ∀ b, 0 ∉ b → Accepts b p → b ≠ encode p → (encode p).length < b.length) ∧
    ∀ p q, encode p = encode q → p = q := by
  refine ⟨fun b p hb h => h.eq_encode hb, fun p n dest hn => ?_,
    fun p => ⟨zero_notMem_encode p, accepts_encode p, fun b hb h hne => ?_⟩, fun p q h => ?_⟩
  · obtain ⟨_, hrun, ⟨len, dest'⟩, rfl, rfl, hdest'⟩ := (encodeFromSlice_outcome p dest).fits hn
    exact ⟨dest', hrun, hdest'.take⟩
  · rcases h.eq_encode hb with heq | ⟨heq, -⟩
    · exact absurd heq hne
    · rw [heq, List.length_append, List.length_singleton]
      omega
  · -- both are what the body decodes to
    obtain ⟨bs, -, hbs, hp⟩ := (accepts_encode p).blocks (zero_notMem_encode p)
    obtain ⟨cs, -, hcs, hq⟩ := (accepts_encode q).blocks (zero_notMem_encode q)
    have hstands := standsFor_wire bs
    rw [← hbs, h, hcs] at hstands
    rw [hp, hq]
    exact hstands.unique (standsFor_wire cs)

/-- The body of `[7, 0, 8]`. -/
theorem encode_canonical_three : [2, 7, 2, 8] = encode [7, 0, 8] ∨
    [2, 7, 2, 8] = encode [7, 0, 8] ++ [1] ∧
      ∃ front last, encode [7, 0, 8] = wire (front ++ [last]) ∧ last.code = 255 := by
  apply encode_canonical.1 [2, 7, 2, 8] [7, 0, 8] (by decide)
  exact ⟨3, .zeros 3, _, 4, .inl rfl, by decide⟩

end CobsIoAsync.Sync
