import Zephcraft.Erasure.Rows
import Zephcraft.Foundations.Blake3

/-!
# Erasure/Coding — coded pieces, and how they are made

A coded piece is a linear combination of the source pieces together with its coefficients. It is
made from the sources (`encode`) or from other coded pieces (`recode`), and in both cases
coefficients are drawn until the coding vector is not zero.
-/

namespace Zephcraft.Erasure

open List

/-- `n = k × ceil(2.0 + 16/k)`, in whole numbers. -/
def durabilityFloor (k : ℕ) : ℕ := k * (2 + (16 + k - 1) / k)

/-- The floor of a content; `none` where the assertion `k > 0` fails. -/
def targetPieces (k : ℕ) : Option ℕ := if 0 < k then some (durabilityFloor k) else none

/-- A combination of the sources. -/
structure CodedPiece where
  codingVector : Bytes
  data : Bytes
deriving DecidableEq, Repr

def CodedPiece.pieceId (piece : CodedPiece) : B32 := blake3 (piece.codingVector ++ piece.data)

/-- How coding fails. -/
inductive ErasureError where
  | badSources
  | shape (expectedK expectedLen : ℕ)
  | nothingToRecode
  | incomplete (rank k : ℕ)
deriving DecidableEq, Repr

/-- The bytes a random generator will give. -/
abbrev Rng := Stream' Byte

/-- `fill_bytes`: as many bytes as the buffer has. -/
def Rng.fillBytes (rng : Rng) (n : ℕ) : Bytes × Rng := (rng.take n, rng.drop n)

theorem Rng.length_fillBytes (rng : Rng) (n : ℕ) : (rng.fillBytes n).1.length = n :=
  Stream'.length_take _ _

variable {n : ℕ} {vector : Bytes} (coefficients : Bytes)

theorem Rng.fillBytes_append {bytes : Bytes} (rng : Rng) (h : bytes.length = n) :
    Rng.fillBytes (bytes ++ₛ rng) n = (bytes, rng) := by
  subst h
  rw [Rng.fillBytes, Stream'.take_append_of_le_length _ _ _ le_rfl, take_length,
    Stream'.drop_append_stream]

def checkSources : List Bytes → Except ErasureError ℕ
  | [] => .error .badSources
  | first :: rest =>
    if first.isEmpty ∨ (first :: rest).any fun s => s.length ≠ first.length then .error .badSources
    else .ok first.length

/-! ## Encoding -/

/-- The loop that draws a coding vector: all zeros is of no use. -/
def drawVector (k : ℕ) : ℕ → Rng → Option (Bytes × Rng)
  | 0, _ => none
  | rounds + 1, rng =>
    let draw := rng.fillBytes k
    if anyNonzero draw.1 then some draw else drawVector k rounds draw.2

/-- The combination of the sources with a coding vector. -/
def combine (sources : List Bytes) (pieceLen : ℕ) (vector : Bytes) : Bytes :=
  (sources.zip vector).foldl (fun data p => Gf.axpy data p.1 p.2) (List.replicate pieceLen 0)

def encode (rounds : ℕ) (sources : List Bytes) (rng : Rng) :
    Option (Except ErasureError CodedPiece × Rng) :=
  match checkSources sources with
  | .error e => some (.error e, rng)
  | .ok pieceLen =>
    (drawVector sources.length rounds rng).map fun (vector, rng) =>
      (.ok ⟨vector, combine sources pieceLen vector⟩, rng)

/-! ## Recoding -/

/-- The pieces agree with the first in the lengths of their vector and of their data. -/
def checkHeld : List CodedPiece → Except ErasureError (ℕ × ℕ)
  | [] => .error .nothingToRecode
  | first :: rest =>
    let k := first.codingVector.length
    let pieceLen := first.data.length
    if (first :: rest).any fun p => p.codingVector.length ≠ k ∨ p.data.length ≠ pieceLen then
      .error (.shape k pieceLen)
    else .ok (k, pieceLen)

/-- One round of the loop: every held piece with its own coefficient. -/
def mix (held : List CodedPiece) (k pieceLen : ℕ) (coefficients : Bytes) : CodedPiece :=
  (held.zip coefficients).foldl
    (fun acc p => ⟨Gf.axpy acc.codingVector p.1.codingVector p.2, Gf.axpy acc.data p.1.data p.2⟩)
    ⟨List.replicate k 0, List.replicate pieceLen 0⟩

/-- The loop: a combination that vanishes is thrown away and started again from zeros. -/
def recodeLoop (held : List CodedPiece) (k pieceLen : ℕ) : ℕ → Rng → Option (CodedPiece × Rng)
  | 0, _ => none
  | rounds + 1, rng =>
    let draw := rng.fillBytes held.length
    let piece := mix held k pieceLen draw.1
    if anyNonzero piece.codingVector then some (piece, draw.2)
    else recodeLoop held k pieceLen rounds draw.2

/-- One coded piece from held ones, without decoding. -/
def recode (rounds : ℕ) (held : List CodedPiece) (rng : Rng) :
    Option (Except ErasureError CodedPiece × Rng) :=
  match checkHeld held with
  | .error e => some (.error e, rng)
  | .ok (k, pieceLen) =>
    (recodeLoop held k pieceLen rounds rng).map fun (piece, rng) => (.ok piece, rng)

/-! ## What the checks pass -/

variable {sources : List Bytes} {held : List CodedPiece} {rng rng' : Rng} {k pieceLen rounds : ℕ}
  {piece : CodedPiece}

theorem checkSources_eq_ok :
    checkSources sources = .ok pieceLen ↔
      sources ≠ [] ∧ 0 < pieceLen ∧ ∀ s ∈ sources, s.length = pieceLen := by
  cases sources with
  | nil => simp [checkSources]
  | cons first rest =>
    simp only [checkSources]
    split_ifs with hbad
    · simp only [false_iff, not_and]
      rintro - hpos hlen
      have hf := hlen first (by simp)
      simp only [List.isEmpty_iff, any_eq_true, decide_eq_true_eq] at hbad
      rcases hbad with hnil | ⟨s, hs, hne⟩
      · simp [← hf, hnil] at hpos
      · exact hne (hf ▸ hlen s hs)
    · simp only [List.isEmpty_iff, any_eq_true, decide_eq_true_eq, not_or, not_exists,
        not_and, not_not] at hbad
      simp only [Except.ok.injEq, ne_eq, reduceCtorEq, not_false_eq_true, true_and]
      constructor
      · rintro rfl
        exact ⟨length_pos_iff.mpr hbad.1, hbad.2⟩
      · exact fun h => h.2 first (by simp)

theorem checkHeld_eq_ok :
    checkHeld held = .ok (k, pieceLen) ↔
      held ≠ [] ∧ ∀ p ∈ held, p.codingVector.length = k ∧ p.data.length = pieceLen := by
  cases held with
  | nil => simp [checkHeld]
  | cons first rest =>
    simp only [checkHeld]
    split_ifs with hbad
    · simp only [any_eq_true, decide_eq_true_eq] at hbad
      obtain ⟨p, hp, hne⟩ := hbad
      simp only [false_iff, not_and]
      rintro - hlen
      obtain ⟨rfl, rfl⟩ := hlen first (by simp)
      obtain ⟨hv, hd⟩ := hlen p hp
      exact hne.elim (absurd hv) (absurd hd)
    · simp only [any_eq_true, decide_eq_true_eq, not_exists, not_and, not_or, not_not] at hbad
      simp only [Except.ok.injEq, Prod.mk.injEq, ne_eq, reduceCtorEq, not_false_eq_true, true_and]
      constructor
      · rintro ⟨rfl, rfl⟩
        exact hbad
      · exact fun h => h first (by simp)

/-! ## Combinations -/

/-- The linear combination of byte strings with coefficients. -/
def combination (n : ℕ) (l : List (Bytes × Byte)) : Fin n → GF256 :=
  (l.map fun p => (⟨p.2⟩ : GF256) • vec n p.1).sum

theorem length_foldl_axpy (l : List (Bytes × Byte)) (acc : Bytes) :
    (l.foldl (fun d p => Gf.axpy d p.1 p.2) acc).length = acc.length := by
  induction l generalizing acc with
  | nil => rfl
  | cons p l ih => rw [foldl_cons, ih, Gf.length_axpy]

theorem vec_foldl_axpy (l : List (Bytes × Byte)) {acc : Bytes} (h : acc.length = n) :
    vec n (l.foldl (fun d p => Gf.axpy d p.1 p.2) acc) = vec n acc + combination n l := by
  induction l generalizing acc with
  | nil => simp [combination]
  | cons p l ih =>
    rw [foldl_cons, ih (by rw [Gf.length_axpy, h]), vec_axpy h, add_assoc]
    rfl

theorem length_combine (vector : Bytes) : (combine sources pieceLen vector).length = pieceLen := by
  rw [combine, length_foldl_axpy, length_replicate]

theorem vec_combine (vector : Bytes) :
    vec pieceLen (combine sources pieceLen vector) = combination pieceLen (sources.zip vector) := by
  rw [combine, vec_foldl_axpy _ (by simp), vec_replicate, zero_add]

theorem mix_eq :
    mix held k pieceLen coefficients =
      ⟨((held.map CodedPiece.codingVector).zip coefficients).foldl (fun d p => Gf.axpy d p.1 p.2)
          (List.replicate k 0),
        ((held.map CodedPiece.data).zip coefficients).foldl (fun d p => Gf.axpy d p.1 p.2)
          (List.replicate pieceLen 0)⟩ := by
  rw [mix]
  generalize List.replicate k (0 : Byte) = v
  generalize List.replicate pieceLen (0 : Byte) = d
  induction held generalizing coefficients v d with
  | nil => rfl
  | cons p held ih =>
    cases coefficients with
    | nil => rfl
    | cons c coefficients =>
      simp only [zip_cons_cons, foldl_cons, map_cons]
      exact ih coefficients _ _

theorem length_codingVector_mix : (mix held k pieceLen coefficients).codingVector.length = k := by
  rw [mix_eq, length_foldl_axpy, length_replicate]

theorem length_data_mix : (mix held k pieceLen coefficients).data.length = pieceLen := by
  rw [mix_eq, length_foldl_axpy, length_replicate]

theorem vec_codingVector_mix :
    vec k (mix held k pieceLen coefficients).codingVector
      = combination k ((held.map CodedPiece.codingVector).zip coefficients) := by
  rw [mix_eq, vec_foldl_axpy _ (by simp), vec_replicate, zero_add]

theorem vec_data_mix :
    vec pieceLen (mix held k pieceLen coefficients).data
      = combination pieceLen ((held.map CodedPiece.data).zip coefficients) := by
  rw [mix_eq, vec_foldl_axpy _ (by simp), vec_replicate, zero_add]

/-! ## Leaving the loops -/

theorem drawVector_eq_some (h : drawVector k rounds rng = some (vector, rng')) :
    vector.length = k ∧ anyNonzero vector := by
  induction rounds generalizing rng with
  | zero => simp [drawVector] at h
  | succ rounds ih =>
    rw [drawVector] at h
    split_ifs at h with hany
    · obtain ⟨rfl, -⟩ := Prod.mk.inj (Option.some.inj h)
      exact ⟨rng.length_fillBytes k, hany⟩
    · exact ih h

theorem drawVector_append (hlen : vector.length = k) (hne : anyNonzero vector) :
    drawVector k (rounds + 1) (vector ++ₛ rng) = some (vector, rng) := by
  rw [drawVector, rng.fillBytes_append hlen]
  exact if_pos hne

/-- **Every combination of the sources that is not zero can be the next piece.** -/
theorem encode_append (hc : checkSources sources = .ok pieceLen)
    (hlen : vector.length = sources.length) (hne : anyNonzero vector) :
    encode (rounds + 1) sources (vector ++ₛ rng)
      = some (.ok ⟨vector, combine sources pieceLen vector⟩, rng) := by
  simp only [encode, hc, drawVector_append hlen hne, Option.map_some]

theorem recodeLoop_eq_some (h : recodeLoop held k pieceLen rounds rng = some (piece, rng')) :
    ∃ coefficients : Bytes, coefficients.length = held.length
      ∧ piece = mix held k pieceLen coefficients ∧ anyNonzero piece.codingVector := by
  induction rounds generalizing rng with
  | zero => simp [recodeLoop] at h
  | succ rounds ih =>
    rw [recodeLoop] at h
    split_ifs at h with hany
    · obtain ⟨rfl, -⟩ := Prod.mk.inj (Option.some.inj h)
      exact ⟨_, rng.length_fillBytes _, rfl, hany⟩
    · exact ih h

theorem recodeLoop_append {coefficients : Bytes} (hlen : coefficients.length = held.length)
    (hne : anyNonzero (mix held k pieceLen coefficients).codingVector) :
    recodeLoop held k pieceLen (rounds + 1) (coefficients ++ₛ rng)
      = some (mix held k pieceLen coefficients, rng) := by
  rw [recodeLoop, rng.fillBytes_append hlen]
  exact if_pos hne

theorem recode_eq_ok (h : checkHeld held = .ok (k, pieceLen)) :
    recode rounds held rng = some (.ok piece, rng')
      ↔ recodeLoop held k pieceLen rounds rng = some (piece, rng') := by
  simp only [recode, h, Option.map_eq_some_iff, Prod.mk.injEq, Except.ok.injEq, Prod.exists]
  constructor
  · rintro ⟨p, r, hl, rfl, rfl⟩
    exact hl
  · exact fun hl => ⟨piece, rng', hl, rfl, rfl⟩

theorem combination_eq_zero {l : List (Bytes × Byte)} (h : ∀ p ∈ l, p.2 = 0 ∨ vec n p.1 = 0) :
    combination n l = 0 := by
  refine sum_eq_zero fun x hx => ?_
  obtain ⟨p, hp, rfl⟩ := mem_map.mp hx
  rcases h p hp with hc | hv
  · rw [hc]
    exact zero_smul GF256 _
  · rw [hv, smul_zero]

/-- **Vectors not all zero have a combination that is not zero**: one of them by itself. -/
theorem exists_combination_ne_zero {l : List Bytes} (h : ∃ v ∈ l, vec n v ≠ 0) :
    ∃ cs : Bytes, cs.length = l.length ∧ combination n (l.zip cs) ≠ 0 := by
  induction l with
  | nil => simp at h
  | cons v l ih =>
    by_cases hv : vec n v = 0
    · obtain ⟨w, hw, hne⟩ := h
      obtain ⟨cs, hlen, hcs⟩ := ih ⟨w, (mem_cons.mp hw).resolve_left fun e => hne (e ▸ hv), hne⟩
      refine ⟨0 :: cs, by simp [hlen], ?_⟩
      simpa [combination, hv] using hcs
    · refine ⟨1 :: List.replicate l.length 0, by simp, ?_⟩
      have hr : combination n (l.zip (List.replicate l.length 0)) = 0 :=
        combination_eq_zero fun p hp => .inl (eq_of_mem_replicate (of_mem_zip hp).2)
      have hsum : combination n ((v :: l).zip (1 :: List.replicate l.length 0))
          = (1 : GF256) • vec n v + combination n (l.zip (List.replicate l.length 0)) := rfl
      rwa [hsum, hr, add_zero, one_smul]

theorem anyNonzero_mix :
    anyNonzero (mix held k pieceLen coefficients).codingVector = true
      ↔ combination k ((held.map CodedPiece.codingVector).zip coefficients) ≠ 0 := by
  rw [anyNonzero_iff_vec (length_codingVector_mix coefficients), vec_codingVector_mix]

theorem exists_recodeLoop_iff (hlen : ∀ p ∈ held, p.codingVector.length = k) :
    (∃ rng rounds piece rng', recodeLoop held k pieceLen rounds rng = some (piece, rng'))
      ↔ ∃ p ∈ held, anyNonzero p.codingVector = true := by
  have hvec : ∀ p ∈ held, anyNonzero p.codingVector = true ↔ vec k p.codingVector ≠ 0 :=
    fun p hp => anyNonzero_iff_vec (hlen p hp)
  constructor
  · rintro ⟨rng, rounds, piece, rng', h⟩
    obtain ⟨cs, -, rfl, hany⟩ := recodeLoop_eq_some h
    by_contra hz
    push Not at hz
    refine (anyNonzero_mix cs).mp hany (combination_eq_zero fun q hq => .inr ?_)
    obtain ⟨p, hp, hpq⟩ := mem_map.mp (of_mem_zip hq).1
    rw [← hpq]
    exact not_not.mp fun h => hz p hp ((hvec p hp).mpr h)
  · rintro ⟨p, hp, hany⟩
    obtain ⟨cs, hcs, hsum⟩ := exists_combination_ne_zero
      ⟨p.codingVector, mem_map_of_mem hp, (hvec p hp).mp hany⟩
    rw [length_map] at hcs
    exact ⟨cs ++ₛ Stream'.const 0, 1, _, _, recodeLoop_append hcs ((anyNonzero_mix cs).mpr hsum)⟩

end Zephcraft.Erasure
