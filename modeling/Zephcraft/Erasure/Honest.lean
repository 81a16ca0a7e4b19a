import Zephcraft.Erasure.Decoder

/-!
# Erasure/Honest — honest pieces pass their tags

What a tag asks of a piece is linear in the piece, so the pieces that pass are closed under
recoding, whatever the tags. The tags of sources pass every piece of these sources — if their number
fits the `u32` the tags have for it.
-/

namespace Zephcraft.Erasure

open VTags List

variable {D : Derivation} {sources : List Bytes} {held : List CodedPiece} {piece : CodedPiece}
  {vtags : VTags} {k pieceLen rounds : ℕ} {rng rng' : Rng}

/-- What a tag asks of a coding vector and its data, as a sum over the field. -/
def tagValue (tag : VTag) (vD : Bytes) (v : Fin k → GF256) (d : Fin pieceLen → GF256) : GF256 :=
  ∑ i, v i * vec k tag.coeffPart i + ∑ j, d j * vec pieceLen vD j

theorem tagValue_add (tag : VTag) (vD : Bytes) (v v' : Fin k → GF256)
    (d d' : Fin pieceLen → GF256) :
    tagValue tag vD (v + v') (d + d') = tagValue tag vD v d + tagValue tag vD v' d' := by
  simp only [tagValue, Pi.add_apply, add_mul, Finset.sum_add_distrib]
  exact add_add_add_comm _ _ _ _

theorem tagValue_smul (tag : VTag) (vD : Bytes) (c : GF256) (v : Fin k → GF256)
    (d : Fin pieceLen → GF256) :
    tagValue tag vD (c • v) (c • d) = c * tagValue tag vD v d := by
  simp only [tagValue, Pi.smul_apply, smul_eq_mul, mul_assoc, ← Finset.mul_sum, mul_add]

theorem passes_iff {tag : VTag} (hv : piece.codingVector.length = k)
    (hd : piece.data.length = pieceLen) :
    passes D pieceLen piece tag = true
      ↔ tagValue tag (D.deriveVD tag.seed pieceLen) (vec k piece.codingVector)
        (vec pieceLen piece.data) = 0 := by
  rw [tagValue, ← dot_eq hv.le, ← dot_eq hd.le, passes, decide_eq_true_eq]
  exact ⟨fun h => congrArg GF256.mk h, fun h => congrArg GF256.byte h⟩

/-- **What vanishes on the pieces vanishes on their combinations.** -/
theorem tagValue_combination {tag : VTag} {vD : Bytes}
    (h : ∀ p ∈ held, tagValue tag vD (vec k p.codingVector) (vec pieceLen p.data) = 0)
    (coefficients : Bytes) :
    tagValue tag vD (combination k ((held.map CodedPiece.codingVector).zip coefficients))
      (combination pieceLen ((held.map CodedPiece.data).zip coefficients)) = 0 := by
  induction held generalizing coefficients with
  | nil => simp [combination, tagValue]
  | cons p held ih =>
    cases coefficients with
    | nil => simp [combination, tagValue]
    | cons c coefficients =>
      obtain ⟨hp, hr⟩ := forall_mem_cons.mp h
      simp only [combination, map_cons, zip_cons_cons, sum_cons]
      rw [tagValue_add, tagValue_smul, hp, mul_zero, zero_add]
      exact ih hr coefficients

/-- **A piece recoded from pieces that pass, passes.** -/
theorem verify_of_recode (hh : ∀ p ∈ held, verify D vtags p = true)
    (h : recode rounds held rng = some (.ok piece, rng')) : verify D vtags piece = true := by
  have hpa := fun p hp => verify_iff.mp (hh p hp)
  have hne : held ≠ [] := by
    rintro rfl
    simp [recode, checkHeld] at h
  obtain ⟨p, hp⟩ := exists_mem_of_ne_nil held hne
  have hc : checkHeld held = .ok (vtags.k.val, vtags.pieceLen.val) :=
    checkHeld_eq_ok.mpr ⟨hne, fun q hq => (hpa q hq).2.1⟩
  obtain ⟨coefficients, -, rfl, -⟩ := recodeLoop_eq_some ((recode_eq_ok hc).mp h)
  refine verify_iff.mpr ⟨(hpa p hp).1, ⟨length_codingVector_mix _, length_data_mix _⟩,
    fun tag htag => ?_⟩
  rw [passes_iff (length_codingVector_mix _) (length_data_mix _), vec_codingVector_mix,
    vec_data_mix]
  exact tagValue_combination
    (fun q hq => (passes_iff (hpa q hq).2.1.1 (hpa q hq).2.1.2).mp ((hpa q hq).2.2 tag htag))
      coefficients

theorem exists_produced (hc : checkSources sources = .ok pieceLen) :
    ∃ piece, Produced sources piece := by
  have hpos := length_pos_iff.mpr (checkSources_eq_ok.mp hc).1
  have hany : anyNonzero (List.replicate sources.length 1) = true :=
    anyNonzero_iff.mpr ⟨1, mem_replicate.mpr ⟨hpos.ne', rfl⟩, by decide⟩
  have hm : encode 1 sources (List.replicate sources.length 1 ++ₛ .const 0) = _ :=
    encode_append hc length_replicate hany
  exact ⟨_, .encode hm⟩

/-- More sources than a `u32` can say, and no piece of them has the length that the tags ask for. -/
theorem not_verify_of_le (hc : checkSources sources = .ok pieceLen) (hl : 2 ^ 32 ≤ sources.length)
    (hp : Produced sources piece) (vtags : VTags) : verify D vtags piece = false := by
  refine Bool.eq_false_of_not_eq_true fun h => ?_
  have hf := hp.fits rfl (checkSources_eq_ok.mp hc).2.2
  have hlen := hf.length_vector.symm.trans (verify_iff.mp h).2.1.1
  have := vtags.k.isLt
  omega

/-- **Honest pieces pass**, whatever the seeds and however they were made, exactly if the number of
sources is a `u32`; and what passes is closed under recoding. -/
theorem honest_pieces_verify_iff (D : Derivation) {sources : List Bytes} {pieceLen : ℕ}
    (hne : sources ≠ []) (hpos : 0 < pieceLen) (hlen : ∀ s ∈ sources, s.length = pieceLen)
    (hfits : pieceLen < 2 ^ 64) :
    ((∀ rng, ∃ vtags rng', generate D sources rng = (.ok vtags, rng')
        ∧ ∀ piece, Produced sources piece → verify D vtags piece = true)
      ↔ sources.length < 2 ^ 32)
      ∧ ∀ (vtags : VTags) (held : List CodedPiece), (∀ p ∈ held, verify D vtags p = true) →
        ∀ rounds rng piece rng', recode rounds held rng = some (.ok piece, rng')
          → verify D vtags piece = true := by
  have hcheck : checkSources sources = .ok pieceLen := checkSources_eq_ok.mpr ⟨hne, hpos, hlen⟩
  refine ⟨⟨fun h => ?_, fun hlt rng => ?_⟩, fun vtags held hheld rounds rng piece rng' =>
    verify_of_recode hheld⟩
  · by_contra hlong
    obtain ⟨piece, hpiece⟩ := exists_produced hcheck
    obtain ⟨vtags, rng', -, hverify⟩ := h (.const 0)
    have hpass := hverify piece hpiece
    rw [not_verify_of_le hcheck (not_lt.mp hlong) hpiece] at hpass
    cases hpass
  · rw [generate, hcheck]
    refine ⟨_, _, rfl, fun piece hpiece => ?_⟩
    have hk : sources.length = (Word.truncate sources.length : Word 32).val :=
      (Nat.mod_eq_of_lt hlt).symm
    have hn : (Word.truncate pieceLen : U64).val = pieceLen := Nat.mod_eq_of_lt hfits
    have hpass :=
      @Produced.verify _ _ D (drawSeeds L rng).1 _ (Word.truncate pieceLen) hk (fun s hs =>
        (hlen s hs).trans hn.symm) hpiece
    rwa [hn] at hpass

theorem honest_pieces_verify_iff_two :
    ∃ vtags rng', generate .repeated [[7], [5]] (.const 3) = (.ok vtags, rng')
      ∧ ∀ piece, Produced [[7], [5]] piece → verify .repeated vtags piece = true :=
  (honest_pieces_verify_iff .repeated (by decide) one_pos (by decide) (by decide)).1.mpr (by decide)
    (.const 3)

theorem checkSources_replicate {n : ℕ} (hn : n ≠ 0) : checkSources (List.replicate n [1]) = .ok 1 :=
  checkSources_eq_ok.mpr
    ⟨fun h => hn (by simpa using h), one_pos, fun s hs => by rw [eq_of_mem_replicate hs]; rfl⟩

/-- `2 ^ 32` sources of one byte: the tags say there are none, and no piece of the sources
passes. -/
theorem too_many_sources_rejected :
    ∃ piece, Produced (List.replicate (2 ^ 32) [1]) piece
      ∧ ∀ vtags rng rng', generate .repeated (List.replicate (2 ^ 32) [1]) rng = (.ok vtags, rng') →
        verify .repeated vtags piece = false := by
  have hcheck := checkSources_replicate (n := 2 ^ 32) (by positivity)
  obtain ⟨piece, hpiece⟩ := exists_produced hcheck
  exact ⟨piece, hpiece, fun vtags _ _ _ => not_verify_of_le hcheck (by rw [length_replicate]) hpiece
    vtags⟩

end Zephcraft.Erasure
