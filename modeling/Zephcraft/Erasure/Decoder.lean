import Zephcraft.Erasure.VTags
import Zephcraft.Foundations.Elimination

/-!
# Erasure/Decoder — progressive decoding

The decoder keeps the pieces it was given as reduced rows, vector and data side by side: what is
done to the one is done to the other.
-/

namespace Zephcraft.Erasure

open List Finset VTags

/-! ## Rows -/

/-- A coding vector and its data, of the lengths the decoder expects. -/
structure Line (k pieceLen : ℕ) where
  vector : Bytes
  data : Bytes
  length_vector : vector.length = k
  length_data : data.length = pieceLen

structure Row (k pieceLen : ℕ) extends Line k pieceLen where
  pivot : Fin k

variable {k pieceLen : ℕ}

namespace Line

/-- `vector[i]`. -/
def entry (x : Line k pieceLen) (i : Fin k) : Byte := x.vector.getD i 0

/-- `axpy` on both parts. -/
def axpy (x y : Line k pieceLen) (c : Byte) : Line k pieceLen :=
  ⟨Gf.axpy x.vector y.vector c, Gf.axpy x.data y.data c,
    (Gf.length_axpy _ _ _).trans x.length_vector, (Gf.length_axpy _ _ _).trans x.length_data⟩

/-- `scale` on both parts. -/
def scale (x : Line k pieceLen) (c : Byte) : Line k pieceLen :=
  ⟨Gf.scale x.vector c, Gf.scale x.data c,
    (Gf.length_scale _ _).trans x.length_vector, (Gf.length_scale _ _).trans x.length_data⟩

/-- `if c != 0 { axpy … }` with the entry of a column as coefficient. -/
def clear (x y : Line k pieceLen) (i : Fin k) : Line k pieceLen :=
  let c := x.entry i
  if c ≠ 0 then x.axpy y c else x

/-- The first column whose entry is not zero. -/
def position (x : Line k pieceLen) : Option (Fin k) := (finRange k).find? fun i => x.entry i ≠ 0

end Line

/-! ## The decoder -/

/-- The rows kept so far. -/
structure Decoder (k pieceLen : ℕ) where
  rows : List (Row k pieceLen)

namespace Decoder

def new (k pieceLen : ℕ) : Decoder k pieceLen := ⟨[]⟩

variable (d : Decoder k pieceLen)

def rank : ℕ := d.rows.length

def isComplete : Bool := d.rank = k

theorem isComplete_iff {d : Decoder k pieceLen} : d.isComplete = true ↔ d.rank = k :=
  decide_eq_true_iff

def reduce (x : Line k pieceLen) : Line k pieceLen :=
  d.rows.foldl (fun x r => x.clear r.toLine r.pivot) x

/-- The rows cleared from a column, and one more. -/
def push (x : Line k pieceLen) (pivot : Fin k) : Decoder k pieceLen :=
  ⟨d.rows.map (fun r => ⟨r.toLine.clear x pivot, r.pivot⟩) ++ [⟨x, pivot⟩]⟩

/-- What is left of a piece becomes a row, normalised at its first entry that is not zero. -/
def insert (x : Line k pieceLen) : Bool × Decoder k pieceLen :=
  match x.position with
  | none => (false, d)
  | some pivot => (true, d.push (x.scale (Gf.inv (x.entry pivot))) pivot)

/-- Whether the piece was independent of those before. -/
def addPiece (piece : CodedPiece) : Except ErasureError (Bool × Decoder k pieceLen) :=
  if h : piece.codingVector.length = k ∧ piece.data.length = pieceLen then
    if d.isComplete then .ok (false, d)
    else .ok (d.insert (d.reduce ⟨piece.codingVector, piece.data, h.1, h.2⟩))
  else .error (.shape k pieceLen)

/-- The sources: the data of the rows in the order of their pivots. -/
def decode : Except ErasureError (List Bytes) :=
  if d.isComplete then
    let ordered := (d.rows.map fun r => (r.pivot, r.data)).insertionSort fun a b => a.1 ≤ b.1
    .ok (ordered.map Prod.snd)
  else .error (.incomplete d.rank k)

/-- The decoder after pieces in a row; what each call returned is not kept. -/
def addPieces (pieces : List CodedPiece) : Except ErasureError (Decoder k pieceLen) :=
  pieces.foldlM (fun d p => Prod.snd <$> d.addPiece p) (new k pieceLen)

end Decoder

/-! ## The vectors are eliminated -/

namespace Line

def vec (x : Line k pieceLen) : Fin k → GF256 := Erasure.vec k x.vector

variable {x y : Line k pieceLen} {i : Fin k}

theorem byte_vec (x : Line k pieceLen) (i : Fin k) : (⟨x.entry i⟩ : GF256) = x.vec i := rfl

theorem vec_axpy (c : Byte) : (x.axpy y c).vec = x.vec + (⟨c⟩ : GF256) • y.vec :=
  Erasure.vec_axpy x.length_vector c

theorem vec_scale (c : Byte) : (x.scale c).vec = (⟨c⟩ : GF256) • x.vec := Erasure.vec_scale c

theorem sub_eq_add (u v : Fin k → GF256) : u - v = u + v := funext fun _ => GF256.sub_eq_add _ _

theorem vec_clear : (x.clear y i).vec = x.vec - x.vec i • y.vec := by
  rw [clear]
  split_ifs with h
  · rw [vec_axpy, sub_eq_add, byte_vec]
  · have hz : x.vec i = 0 := congrArg GF256.mk (not_not.mp h)
    rw [hz, zero_smul, sub_zero]

theorem position_eq_none : x.position = none ↔ x.vec = 0 := by
  simp only [position, find?_eq_none, mem_finRange, forall_const]
  constructor
  · intro h
    funext i
    have hi : x.entry i = 0 := by simpa using h i
    exact congrArg GF256.mk hi
  · intro h i
    have hi : x.entry i = 0 := congrArg GF256.byte (congrFun h i)
    simp [hi]

theorem entry_of_position (h : x.position = some i) : x.entry i ≠ 0 := by
  simpa using find?_some h

end Line

def Row.view (r : Row k pieceLen) : Elimination.Row GF256 (Fin k) := ⟨r.pivot, r.toLine.vec⟩

namespace Decoder

/-- The rows of a decoder as rows of the elimination. -/
def view (d : Decoder k pieceLen) : List (Elimination.Row GF256 (Fin k)) := d.rows.map Row.view

theorem vec_reduce (d : Decoder k pieceLen) (x : Line k pieceLen) :
    (d.reduce x).vec = Elimination.reduce d.view x.vec := by
  obtain ⟨rows⟩ := d
  induction rows generalizing x with
  | nil => rfl
  | cons r rows ih =>
    have hs := ih (x.clear r.toLine r.pivot)
    rw [Line.vec_clear] at hs
    exact hs

theorem view_push (d : Decoder k pieceLen) (x : Line k pieceLen) (pivot : Fin k) :
    (d.push x pivot).view = Elimination.extend d.view pivot x.vec := by
  simp only [view, push, Elimination.extend, map_append, List.map_map, List.map_cons, map_nil]
  congr 1
  refine map_congr_left fun r _ => ?_
  simp only [Function.comp_apply, Row.view, Line.vec_clear]

variable {d d' : Decoder k pieceLen} {piece : CodedPiece} {b : Bool}

def Reduced (d : Decoder k pieceLen) : Prop := Elimination.Reduced d.view

def space (d : Decoder k pieceLen) : Submodule GF256 (Fin k → GF256) := Elimination.space d.view

theorem rank_eq (h : d.Reduced) : d.rank = Module.finrank GF256 d.space := by
  rw [space, Elimination.Reduced.finrank_space h, view, length_map, rank]

theorem space_of_isComplete (h : d.Reduced) (hc : d.isComplete = true) : d.space = ⊤ := by
  refine Submodule.eq_top_of_finrank_eq ?_
  rw [← rank_eq h, Module.finrank_fintype_fun_eq_card, Fintype.card_fin]
  exact isComplete_iff.mp hc

/-- **What is left of a line becomes a row**: the rows stay reduced, they span the line too, and it
counts exactly when they did not span it before. -/
theorem insert_reduce (h : d.Reduced) (x : Line k pieceLen) :
    (d.insert (d.reduce x)).2.Reduced
      ∧ (d.insert (d.reduce x)).2.space = d.space ⊔ Submodule.span GF256 {x.vec}
      ∧ ((d.insert (d.reduce x)).1 = true ↔ x.vec ∉ d.space) := by
  rw [insert]
  cases hpos : (d.reduce x).position with
  | none =>
    have hmem : x.vec ∈ d.space := by
      rw [space, Elimination.Reduced.mem_space_iff h, ← vec_reduce, Line.position_eq_none.mp hpos]
    exact ⟨h, (sup_eq_left.mpr ((Submodule.span_singleton_le_iff_mem _ _).mpr hmem)).symm,
      by simp [hmem]⟩
  | some pivot =>
    have he := Line.entry_of_position hpos
    have hne : Elimination.reduce d.view x.vec pivot ≠ 0 := by
      rw [← vec_reduce]
      exact fun h => he (congrArg GF256.byte h)
    have hn : ((d.reduce x).scale (Gf.inv ((d.reduce x).entry pivot))).vec
        = (Elimination.reduce d.view x.vec pivot)⁻¹ • Elimination.reduce d.view x.vec := by
      rw [Line.vec_scale, ← vec_reduce, ← Line.byte_vec, GF256.inv_mk he]
    obtain ⟨hred, hs, hout⟩ := Elimination.Reduced.insert h hne
    simp only [Reduced, space, view_push, hn]
    exact ⟨hred, hs, by simpa using hout⟩

theorem addPiece_spec (h : d.Reduced)
    (hlen : piece.codingVector.length = k ∧ piece.data.length = pieceLen) :
    ∃ b d', d.addPiece piece = .ok (b, d') ∧ d'.Reduced
      ∧ d'.space = d.space ⊔ Submodule.span GF256 {vec k piece.codingVector}
      ∧ (b = true ↔ vec k piece.codingVector ∉ d.space) := by
  rw [addPiece, dif_pos hlen]
  split_ifs with hc
  · exact ⟨false, d, rfl, h, by simp [space_of_isComplete h hc], by simp [space_of_isComplete h hc]⟩
  · exact ⟨_, _, rfl, insert_reduce h _⟩

end Decoder

/-! ## The data goes along -/

/-- The combination of the sources with given coefficients. -/
def sourceMap (sources : List Bytes) (k pieceLen : ℕ) :
    (Fin k → GF256) →ₗ[GF256] (Fin pieceLen → GF256) :=
  Fintype.linearCombination GF256 fun i => vec pieceLen (sources.getD i [])

theorem sourceMap_single {sources : List Bytes} (i : Fin k) :
    sourceMap sources k pieceLen (Pi.single i 1) = vec pieceLen (sources.getD i []) := by
  rw [sourceMap, Fintype.linearCombination_apply_single, one_smul]

theorem combination_zip {sources : List Bytes} (hlen : sources.length = k) (vector : Bytes) :
    combination pieceLen (sources.zip vector) = sourceMap sources k pieceLen (vec k vector) := by
  rw [sourceMap, Fintype.linearCombination_apply]
  induction sources generalizing k vector with
  | nil =>
    subst hlen
    rfl
  | cons s sources ih =>
    subst hlen
    cases vector with
    | nil => simp [combination, vec_nil]
    | cons c vector =>
      have hc : combination pieceLen ((s :: sources).zip (c :: vector))
          = (⟨c⟩ : GF256) • vec pieceLen s + combination pieceLen (sources.zip vector) := rfl
      rw [hc, ih rfl, length_cons, Fin.sum_univ_succ]
      rfl

/-- **A line says of which combination of the sources its data is.** -/
def Line.Agrees (sources : List Bytes) (x : Line k pieceLen) : Prop :=
  Erasure.vec pieceLen x.data = sourceMap sources k pieceLen x.vec

namespace Line

variable {sources : List Bytes} {x y : Line k pieceLen} {i : Fin k}

theorem Agrees.axpy (hx : x.Agrees sources) (hy : y.Agrees sources) (c : Byte) :
    (x.axpy y c).Agrees sources := by
  rw [Agrees, vec_axpy, map_add, map_smul, ← hx, ← hy]
  exact Erasure.vec_axpy x.length_data c

theorem Agrees.scale (hx : x.Agrees sources) (c : Byte) : (x.scale c).Agrees sources := by
  rw [Agrees, vec_scale, map_smul, ← hx]
  exact Erasure.vec_scale c

theorem Agrees.clear (hx : x.Agrees sources) (hy : y.Agrees sources) :
    (x.clear y i).Agrees sources := by
  rw [Line.clear]
  split_ifs
  · exact hx.axpy hy _
  · exact hx

end Line

namespace Decoder

variable {sources : List Bytes} {d d' : Decoder k pieceLen} {x : Line k pieceLen} {b : Bool}
  {piece : CodedPiece}

/-- The rows of the decoder agree with the sources. -/
def Agrees (sources : List Bytes) (d : Decoder k pieceLen) : Prop :=
  ∀ r ∈ d.rows, r.toLine.Agrees sources

theorem Agrees.reduce (h : d.Agrees sources) (hx : x.Agrees sources) :
    (d.reduce x).Agrees sources := by
  obtain ⟨rows⟩ := d
  induction rows generalizing x with
  | nil => exact hx
  | cons r rows ih =>
    exact ih (hx.clear (h r (by simp))) fun s hs => h s (.tail r hs)

theorem Agrees.push (h : d.Agrees sources) (hx : x.Agrees sources) (pivot : Fin k) :
    (d.push x pivot).Agrees sources := by
  intro r' hr'
  rcases mem_append.mp hr' with hr' | hr'
  · obtain ⟨r, hr, rfl⟩ := List.mem_map.mp hr'
    exact (h r hr).clear hx
  · obtain rfl : r' = ⟨x, pivot⟩ := by simpa using hr'
    exact hx

theorem Agrees.insert (h : d.Agrees sources) (hx : x.Agrees sources) :
    (d.insert x).2.Agrees sources := by
  rw [Decoder.insert]
  split
  · exact h
  · exact h.push (hx.scale _) _

theorem Agrees.addPiece (h : d.Agrees sources) (hadd : d.addPiece piece = .ok (b, d'))
    (hp : vec pieceLen piece.data = sourceMap sources k pieceLen (vec k piece.codingVector)) :
    d'.Agrees sources := by
  rw [Decoder.addPiece] at hadd
  split_ifs at hadd with hlen hc
  · cases hadd
    exact h
  · obtain rfl : (d.insert _).2 = d' := congrArg Prod.snd (Except.ok.inj hadd)
    exact h.insert (h.reduce hp)

theorem perm_finRange (h : d.Reduced) (hc : d.isComplete = true) :
    (d.rows.map Row.pivot).Perm (finRange k) := by
  have hn : (d.rows.map Row.pivot).Nodup := by
    have hv := Elimination.Reduced.nodup_pivots h
    rwa [view, List.map_map] at hv
  have hca : (d.rows.map Row.pivot).toFinset.card = Fintype.card (Fin k) := by
    rw [toFinset_card_of_nodup hn, length_map, Fintype.card_fin]
    exact isComplete_iff.mp hc
  refine (perm_ext_iff_of_nodup hn (nodup_finRange k)).mpr fun i => ?_
  rw [← mem_toFinset, eq_univ_of_card _ hca]
  simp

theorem data_eq (h : d.Reduced) (hd : d.Agrees sources) (hlen : sources.length = k)
    (hs : ∀ s ∈ sources, s.length = pieceLen) (hc : d.isComplete = true) {r : Row k pieceLen}
    (hr : r ∈ d.rows) : r.data = sources.getD r.pivot [] := by
  have hall : ∀ i, ∃ v ∈ d.view, v.pivot = i := fun i => by
    obtain ⟨s, hs, rfl⟩ := List.mem_map.mp ((perm_finRange h hc).mem_iff.mpr (mem_finRange i))
    exact ⟨s.view, List.mem_map_of_mem hs, rfl⟩
  have hu : r.toLine.vec = Pi.single r.pivot 1 :=
    Elimination.Reduced.vector_eq_single h hall (List.mem_map_of_mem (f := Row.view) hr)
  have hso : (sources.getD r.pivot []).length = pieceLen := by
    refine hs _ ?_
    rw [getD_eq_getElem _ _ (hlen ▸ r.pivot.isLt)]
    exact getElem_mem _
  refine vec_injective r.length_data hso ?_
  rw [← sourceMap_single, ← hu]
  exact hd r hr

theorem decode_eq (h : d.Reduced) (hd : d.Agrees sources) (hlen : sources.length = k)
    (hs : ∀ s ∈ sources, s.length = pieceLen) (hc : d.isComplete = true) :
    d.decode = .ok sources := by
  rw [decode, if_pos hc]
  have hro : d.rows.map (fun r => (r.pivot, r.data))
      = (d.rows.map Row.pivot).map fun i : Fin k => (i, sources.getD i []) := by
    rw [List.map_map]
    exact map_congr_left fun r hr => Prod.ext rfl (data_eq h hd hlen hs hc hr)
  -- sorting the pairs is sorting the pivots, and those are all the columns
  have hso : (d.rows.map Row.pivot).insertionSort (· ≤ ·) = finRange k :=
    ((perm_insertionSort _ _).trans (perm_finRange h hc)).eq_of_sortedLE
      sortedLE_insertionSort (sortedLT_finRange k).sortedLE
  have hp : ((d.rows.map Row.pivot).map fun i : Fin k => (i, sources.getD i [])).insertionSort
      (fun a b => a.1 ≤ b.1) = (finRange k).map fun i : Fin k => (i, sources.getD i []) := by
    rw [← hso]
    exact (map_insertionSort (· ≤ ·) (fun a b : Fin k × Bytes => a.1 ≤ b.1) _ _
      fun _ _ _ _ => Iff.rfl).symm
  simp only [hro, hp]
  rw [List.map_map]
  refine congrArg Except.ok (ext_getElem (by simp [hlen]) fun i hi hi' => ?_)
  simp [hi']

end Decoder

/-! ## Pieces that come from the sources -/

/-- Pieces made from the sources, directly or through any pieces made from them. -/
inductive Produced (sources : List Bytes) : CodedPiece → Prop
  | encode {rounds rng rng' piece} (h : encode rounds sources rng = some (.ok piece, rng')) :
    Produced sources piece
  | recode {held rounds rng rng' piece} (hheld : ∀ p ∈ held, Produced sources p)
    (h : recode rounds held rng = some (.ok piece, rng')) : Produced sources piece

variable {sources : List Bytes} {piece : CodedPiece}

/-- A piece of the right shape whose data is the combination of the sources its vector says. -/
structure Fits (sources : List Bytes) (k pieceLen : ℕ) (piece : CodedPiece) : Prop where
  length_vector : piece.codingVector.length = k
  length_data : piece.data.length = pieceLen
  agrees : vec pieceLen piece.data = sourceMap sources k pieceLen (vec k piece.codingVector)

theorem fits_of_encode (hlen : sources.length = k) (hs : ∀ s ∈ sources, s.length = pieceLen)
    {rounds : ℕ} {rng rng' : Rng} (h : encode rounds sources rng = some (.ok piece, rng')) :
    Fits sources k pieceLen piece := by
  rw [encode] at h
  split at h
  · simp at h
  · rename_i n hc
    obtain ⟨hne, -, hn⟩ := checkSources_eq_ok.mp hc
    obtain ⟨s, hmem⟩ := exists_mem_of_ne_nil _ hne
    obtain rfl : n = pieceLen := (hn s hmem).symm.trans (hs s hmem)
    obtain ⟨⟨vector, r⟩, hd, heq⟩ := Option.map_eq_some_iff.mp h
    obtain ⟨rfl, -⟩ := by simpa using heq
    exact ⟨hlen ▸ (drawVector_eq_some hd).1, length_combine vector,
      (vec_combine vector).trans (combination_zip hlen vector)⟩

theorem combination_data {held : List CodedPiece} (hh : ∀ p ∈ held, Fits sources k pieceLen p)
    (coefficients : Bytes) :
    combination pieceLen ((held.map CodedPiece.data).zip coefficients)
      = sourceMap sources k pieceLen
        (combination k ((held.map CodedPiece.codingVector).zip coefficients)) := by
  induction held generalizing coefficients with
  | nil => simp [combination]
  | cons p held ih =>
    cases coefficients with
    | nil => simp [combination]
    | cons c coefficients =>
      have hr := ih (fun q hq => hh q (.tail p hq)) coefficients
      simp only [combination, List.map_cons, zip_cons_cons, List.sum_cons, map_add,
        map_smul] at hr ⊢
      rw [hr, (hh p (by simp)).agrees]

theorem Produced.fits (hlen : sources.length = k) (hs : ∀ s ∈ sources, s.length = pieceLen)
    (h : Produced sources piece) : Fits sources k pieceLen piece := by
  induction h with
  | encode h => exact fits_of_encode hlen hs h
  | @recode held rounds rng rng' piece _ h ih =>
    obtain ⟨⟨k', n⟩, hch⟩ : ∃ shape, checkHeld held = .ok shape := by
      cases hc : checkHeld held with
      | ok shape => exact ⟨shape, rfl⟩
      | error e => simp [Erasure.recode, hc] at h
    obtain ⟨hne, hsh⟩ := checkHeld_eq_ok.mp hch
    obtain ⟨p, hp⟩ := exists_mem_of_ne_nil _ hne
    obtain rfl : k' = k := (hsh p hp).1.symm.trans (ih p hp).length_vector
    obtain rfl : n = pieceLen := (hsh p hp).2.symm.trans (ih p hp).length_data
    obtain ⟨coefficients, -, rfl, -⟩ := recodeLoop_eq_some ((recode_eq_ok hch).mp h)
    refine ⟨length_codingVector_mix _, length_data_mix _, ?_⟩
    rw [vec_data_mix, vec_codingVector_mix, combination_data ih]

/-! ## What the tags of the sources admit -/

theorem Fits.dot_eq_dot (h : Fits sources k pieceLen piece) (hlen : sources.length = k)
    (hs : ∀ s ∈ sources, s.length = pieceLen) (vD : Bytes) :
    Gf.dot piece.codingVector (sources.map fun s => Gf.dot s vD) = Gf.dot piece.data vD := by
  have hc : ∀ i : Fin k, vec k (sources.map fun s => Gf.dot s vD) i
      = ∑ j, vec pieceLen (sources.getD i []) j * vec pieceLen vD j := fun i => by
    have hi : i.val < sources.length := hlen ▸ i.isLt
    have hget : (sources.map fun s => Gf.dot s vD).getD i 0 = Gf.dot (sources.getD i []) vD := by
      simp [hi]
    rw [vec, hget, dot_eq]
    rw [getD_eq_getElem _ _ hi]
    exact (hs _ (getElem_mem hi)).le
  have hd : ∀ j, vec pieceLen piece.data j
      = ∑ i, vec k piece.codingVector i * vec pieceLen (sources.getD i []) j := fun j => by
    rw [h.agrees, sourceMap, Fintype.linearCombination_apply, Finset.sum_apply]
    rfl
  suffices hsum : (⟨Gf.dot piece.codingVector (sources.map fun s => Gf.dot s vD)⟩ : GF256)
      = ⟨Gf.dot piece.data vD⟩ from congrArg GF256.byte hsum
  rw [dot_eq h.length_vector.le, dot_eq h.length_data.le]
  simp only [hc, hd, mul_sum, sum_mul, mul_assoc]
  exact sum_comm

theorem Fits.verify {D : Derivation} {seeds : List B32} {k : Word 32} {pieceLen : U64}
    (h : Fits sources k.val pieceLen.val piece) (hlen : sources.length = k.val)
    (hs : ∀ s ∈ sources, s.length = pieceLen.val) :
    VTags.verify D ⟨schemeNullSpaceV1, k, pieceLen,
      seeds.map (tagOf D sources pieceLen.val)⟩ piece = true := by
  refine VTags.verify_iff.mpr ⟨rfl, ⟨h.length_vector, h.length_data⟩, fun tag htag => ?_⟩
  obtain ⟨seed, -, rfl⟩ := List.mem_map.mp htag
  simp [passes, tagOf, h.dot_eq_dot hlen hs]

theorem Produced.verify {D : Derivation} {seeds : List B32} {k : Word 32} {pieceLen : U64}
    (hlen : sources.length = k.val) (hs : ∀ s ∈ sources, s.length = pieceLen.val)
    (h : Produced sources piece) :
    VTags.verify D ⟨schemeNullSpaceV1, k, pieceLen,
      seeds.map (tagOf D sources pieceLen.val)⟩ piece = true :=
  (h.fits hlen hs).verify hlen hs

/-! ## Decoding -/

namespace Decoder

variable {pieces : List CodedPiece}

/-- What the coding vectors of pieces span. -/
def span (k : ℕ) (pieces : List CodedPiece) : Submodule GF256 (Fin k → GF256) :=
  Submodule.span GF256 {v | ∃ p ∈ pieces, v = vec k p.codingVector}

theorem span_concat (p : CodedPiece) :
    span k (pieces ++ [p]) = span k pieces ⊔ Submodule.span GF256 {vec k p.codingVector} := by
  rw [span, span, ← Submodule.span_union]
  congr 1
  ext v
  simp [or_and_right, exists_or, or_comm]

/-- **After any pieces from the sources** the rows are reduced, agree with the sources and span what
came in. -/
theorem addPieces_spec (hlen : sources.length = k) (hs : ∀ s ∈ sources, s.length = pieceLen)
    (hp : ∀ p ∈ pieces, Produced sources p) :
    ∃ d : Decoder k pieceLen, addPieces pieces = .ok d ∧ d.Reduced ∧ d.Agrees sources
      ∧ d.space = span k pieces := by
  induction pieces using reverseRecOn with
  | nil =>
    refine ⟨new k pieceLen, rfl, ⟨List.Pairwise.nil, by simp [view, new]⟩, by simp [Agrees, new],
      ?_⟩
    simp [space, span, Elimination.space, view, new]
  | append_singleton pieces p ih =>
    obtain ⟨d, hd, hred, ha, hsp⟩ := ih fun q hq => hp q (mem_append_left _ hq)
    have hf := (hp p (by simp)).fits hlen hs
    obtain ⟨b, d', hadd, hred', hs', -⟩ := addPiece_spec hred ⟨hf.length_vector, hf.length_data⟩
    refine ⟨d', ?_, hred', ha.addPiece hadd hf.agrees, ?_⟩
    · rw [addPieces] at hd ⊢
      rw [foldlM_append, hd]
      simp [hadd, bind, Except.bind, pure, Except.pure]
    · rw [hs', hsp, span_concat]

/-- **The decoder is correct.** -/
theorem decoder_correct (hlen : sources.length = k)
    (hs : ∀ s ∈ sources, s.length = pieceLen) (hpieces : ∀ p ∈ pieces, Produced sources p) :
    ∃ d : Decoder k pieceLen, addPieces pieces = .ok d ∧ d.Reduced ∧ (d.rows.map Row.pivot).Nodup
      ∧ (∀ piece, Produced sources piece → ∃ b d', d.addPiece piece = .ok (b, d')
        ∧ (b = true ↔ vec k piece.codingVector ∉ span k pieces))
      ∧ d.rank = Module.finrank GF256 (span k pieces)
      ∧ (d.isComplete = true → d.decode = .ok sources) := by
  obtain ⟨d, hd, hred, hagree, hspace⟩ := addPieces_spec hlen hs hpieces
  have hnodup : (d.rows.map Row.pivot).Nodup := by
    have hview := Elimination.Reduced.nodup_pivots hred
    rwa [view, List.map_map] at hview
  refine ⟨d, hd, hred, hnodup, fun piece hpiece => ?_, hspace ▸ rank_eq hred,
    decode_eq hred hagree hlen hs⟩
  have hfits := hpiece.fits hlen hs
  obtain ⟨b, d', hadd, -, -, hb⟩ := addPiece_spec hred ⟨hfits.length_vector, hfits.length_data⟩
  exact ⟨b, d', hadd, hspace ▸ hb⟩

/-- Two sources of one byte, and a piece of them. -/
def twoSources : List Bytes := [[7], [5]]

def pieceOfTwo (vector : Bytes) : CodedPiece := ⟨vector, combine twoSources 1 vector⟩

theorem produced_pieceOfTwo {vector : Bytes} (hlen : vector.length = 2) (hne : anyNonzero vector) :
    Produced twoSources (pieceOfTwo vector) := by
  have h : encode 1 twoSources (vector ++ₛ Stream'.const 0)
      = some (.ok (pieceOfTwo vector), Stream'.const 0) := encode_append (by decide) hlen hne
  exact .encode h

theorem decoder_correct_twoSources :
    ∃ d : Decoder 2 1, addPieces [pieceOfTwo [1, 2], pieceOfTwo [1, 2], pieceOfTwo [3, 1]] = .ok d
      ∧ d.Reduced ∧ (d.rows.map Row.pivot).Nodup
      ∧ (∀ piece, Produced twoSources piece → ∃ b d', d.addPiece piece = .ok (b, d')
        ∧ (b = true ↔ vec 2 piece.codingVector
          ∉ span 2 [pieceOfTwo [1, 2], pieceOfTwo [1, 2], pieceOfTwo [3, 1]]))
      ∧ d.rank = Module.finrank GF256
        (span 2 [pieceOfTwo [1, 2], pieceOfTwo [1, 2], pieceOfTwo [3, 1]])
      ∧ (d.isComplete = true → d.decode = .ok twoSources) := by
  refine decoder_correct rfl (by decide) fun p hp => ?_
  simp only [List.mem_cons, not_mem_nil, or_false] at hp
  rcases hp with rfl | rfl | rfl
  · exact produced_pieceOfTwo rfl (by decide)
  · exact produced_pieceOfTwo rfl (by decide)
  · exact produced_pieceOfTwo rfl (by decide)

end Decoder

end Zephcraft.Erasure
